import Script.Proofs.Machine.Lockstep
import Script.Proofs.Session.Balance
import Script.Proofs.Session.StaticChecks

/-!
# A lower limit on the nesting of calls

Lowering the limit does nothing to a run until it has as many calls in progress as the lower limit
allows and makes one more. That call fails then, and the run ends with the failure.

- `Configuration.calls`, `Paced`: the calls in progress are counted, and within the limit.
- `calls_step`: a step makes at most one call, and only if there is room for it.
- `Configuration.limited`, `step_limited`, `step_limited_of_full`: the step under a lower limit.
- `CutAtCall`, `depth_limit_only_cuts_short`: runs under two limits.
-/

namespace Script

/-! ## Calls in progress -/

/-- A part of the stack that ends a call. -/
def Continuation.endsCall : Continuation → Bool
  | .leaveCall .. => true
  | _ => false

/-- The number of calls that a stack ends. -/
def Stack.calls (k : Stack) : Nat := k.countP Continuation.endsCall

@[simp] theorem Stack.calls_cons (p : Continuation) (k : Stack) :
    Stack.calls (p :: k) = Stack.calls k + if p.endsCall then 1 else 0 :=
  List.countP_cons ..

theorem Stack.calls_append (k₁ k₂ : Stack) :
    Stack.calls (k₁ ++ k₂) = Stack.calls k₁ + Stack.calls k₂ :=
  List.countP_append ..

/-- The calls that a stack ends are those of the scopes it leaves. -/
theorem Stack.calls_eq_foldr (k : Stack) :
    Stack.calls k = (Stack.scopes k).foldr (fun scope n => scope.calls + n) 0 := by
  induction k with
  | nil => rfl
  | cons p k ih =>
    rw [calls_cons, ih, scopes_cons, Nat.add_comm]
    cases p <;> simp [Continuation.endsCall, Continuation.scope?]

namespace Configuration

/-- The number of calls in progress. -/
def calls (c : Configuration) : Nat := Stack.calls c.stack

/-- The calls in progress are counted, and no more than allowed. -/
structure Paced (c : Configuration) : Prop where
  counted : c.session.depth = c.calls
  bounded : c.calls ≤ c.session.maxDepth

variable {c d : Configuration} {k : Stack} {s : Session} {pos : Position}

/-- A change keeps count of the calls. -/
theorem Change.counted (h : c.Change d) (hc : c.session.depth = c.calls) :
    d.session.depth = d.calls := by
  unfold calls at hc ⊢
  rw [Stack.calls_eq_foldr] at hc ⊢
  cases h with
  | none arena depth same holds => rw [depth, same, hc]
  | put x name v arena value depth same holds => rw [depth, same, hc]
  | make decl arena depth same holds => rw [depth, same, hc]
  | enter parent params args calls within arena values depth more holds =>
    rw [depth, more, hc, List.foldr_cons, Nat.add_comm]
  | leave frame caller calls outside arena told depth fewer holds =>
    rw [depth, hc, fewer, List.foldr_cons, Nat.add_sub_cancel_left]

/-! ## Making calls -/

/-- What a call needs in order to begin. -/
structure Begins (callee : Value) (args : List Value) (s : Session) : Prop where
  function : ∃ f, callee = .function f ∧ args.length = f.decl.arity
  room : s.depth < s.maxDepth

variable {x y : Control} {taken put : Stack} {o : Outcome} {p : Continuation} {callee : Value}
  {args : List Value}

theorem Awaits.calls_eq_zero {e : Expr} (h : Awaits x taken e p) : Stack.calls [p] = 0 := by
  cases h <;> rfl

theorem Runs.calls_eq_zero {st : Stmt} (h : Runs o p st put) : Stack.calls put = 0 := by
  cases h <;> rfl

theorem Summons.calls_eq_zero (h : Summons o p callee args pos) : Stack.calls [p] = 0 := by
  cases h <;> rfl

theorem Summons.attempt?_eq (h : Summons o p callee args pos) (k : Stack) (s : Session) :
    attempt? ⟨.done o, p :: k, s⟩ = some (.call callee args pos, k) := by
  cases h <;> rfl

/-- On its course, a step puts a call on the stack only if the call has all it needs. -/
theorem Course.calls (h : Course s x taken y put) : Stack.calls put ≤ Stack.calls taken ∨
    ∃ o p callee args pos, x = .done o ∧ taken = [p] ∧ Summons o p callee args pos ∧
      Begins callee args s ∧ Stack.calls put = 1 := by
  cases h with
  | awaits hawaits =>
    rw [hawaits.calls_eq_zero]
    exact .inl (Nat.zero_le _)
  | runs hruns =>
    rw [hruns.calls_eq_zero]
    exact .inl (Nat.zero_le _)
  | call hsummons harity hroom =>
    exact .inr ⟨_, _, _, _, _, rfl, rfl, hsummons, ⟨⟨_, rfl, harity⟩, hroom⟩, rfl⟩
  | badCall hsummons harity hroom =>
    exact .inr ⟨_, _, _, _, _, rfl, rfl, hsummons, ⟨⟨_, rfl, harity⟩, hroom⟩, rfl⟩
  | _ => exact .inl (Nat.zero_le _)

/-- **A step makes at most one call**, and only if there is room for it. -/
theorem calls_step (c : Configuration) :
    c.step.calls ≤ c.calls ∨
      ∃ callee args pos k, c.attempt? = some (.call callee args pos, k) ∧
        Begins callee args c.session ∧ c.step.calls = c.calls + 1 := by
  rcases step_cases c with ⟨-, hsame⟩ | ⟨taken, k, y, put, t, htaken, hcourse, hstep⟩
  · rw [hsame]
    exact .inl (Nat.le_refl _)
  obtain ⟨x, stack, s⟩ := c
  obtain rfl : stack = taken ++ k := htaken
  rw [hstep, calls, calls, Stack.calls_append, Stack.calls_append]
  rcases hcourse.calls with hle | ⟨o, p, callee, args, pos, rfl, rfl, hsummons, hbegins, hput⟩
  · exact .inl (Nat.add_le_add_right hle _)
  · refine .inr ⟨callee, args, pos, k, hsummons.attempt?_eq k s, hbegins, ?_⟩
    rw [hput, hsummons.calls_eq_zero, Nat.zero_add, Nat.add_comm]

/-- An attempt takes off the stack what waited for its last value, which ends no call. -/
theorem calls_of_attempt {a : Attempt} (h : c.attempt? = some (a, k)) :
    c.calls = Stack.calls k := by
  obtain ⟨o, p, -, hstack, hscope, -⟩ := attempt?_eq_some h
  rw [calls, hstack, Stack.calls_eq_foldr, Stack.scopes_cons, hscope]
  exact (Stack.calls_eq_foldr k).symm

/-- A call that begins is one more in progress. -/
theorem calls_of_begins (h : c.attempt? = some (.call callee args pos, k))
    (hbegins : Begins callee args c.session) : c.step.calls = c.calls + 1 := by
  obtain ⟨⟨f, rfl, harity⟩, hroom⟩ := hbegins
  rw [show c.step = call (.function f) args pos k c.session from step_of_attempt h,
    calls_of_attempt h]
  unfold call
  simp only
  rw [if_neg (not_not.2 harity), if_neg (Nat.not_le.2 hroom)]
  split <;> simp [calls, Continuation.endsCall]

theorem Paced.step (h : c.Paced) : c.step.Paced := by
  refine ⟨(effect_step c).change.counted h.counted, ?_⟩
  rw [(effect_step c).settings.maxDepth]
  rcases calls_step c with hle | ⟨callee, args, pos, k, -, hbegins, hcalls⟩
  · exact Nat.le_trans hle h.bounded
  · have hroom := hbegins.room
    rw [h.counted] at hroom
    omega

theorem Paced.after (h : c.Paced) (n : Nat) : (c.after n).Paced :=
  after_induction (fun _ hc => hc.step) h n

end Configuration

/-- **The calls in progress are counted at every moment**, whatever a host has asked for before. -/
theorem Moment.paced {since : Nat} {c : Configuration} (h : Moment since c) : c.Paced := by
  obtain ⟨s, r, first, n, hs, hstart, rfl⟩ := h
  refine Configuration.Paced.after ?_ n
  have hdepth : s.depth = 0 := congrArg Standing.depth (Session.standing_reached hs)
  -- a request starts on a stack that ends no call
  cases r with
  | interpret program =>
    obtain rfl := Option.some.inj hstart
    exact ⟨hdepth, Nat.zero_le _⟩
  | exec st =>
    simp only [Request.start, Option.ite_none_right_eq_some, Option.some.injEq] at hstart
    obtain ⟨-, rfl⟩ := hstart
    exact ⟨hdepth, Nat.zero_le _⟩
  | eval e =>
    obtain rfl := Option.some.inj hstart
    exact ⟨hdepth, Nat.zero_le _⟩
  | _ => cases hstart

/-! ## A lower limit -/

namespace Configuration

variable {c : Configuration} {d : Nat}

/-- The configuration under another limit on the nesting of calls. -/
def limited (d : Nat) (c : Configuration) : Configuration := c.map (·.withMaxDepth d)

theorem printAt_withMaxDepth (v : Value) (pos : Position) (k : Stack) (s : Session) :
    printAt v pos k (s.withMaxDepth d) = (printAt v pos k s).limited d := by
  simp only [printAt, Session.withMaxDepth]
  split <;> rfl

/-- A step under a lower limit is the same step, if no more calls are in progress before and after
it than the lower limit allows. -/
theorem step_limited (h : c.Paced) (hd : d ≤ c.session.maxDepth) (hbefore : c.calls ≤ d)
    (hbehind : c.step.calls ≤ d) : (c.limited d).step = c.step.limited d := by
  refine step_map (Session.resets_withMaxDepth d) fun a k hattempt => ?_
  cases a with
  | print v pos => exact printAt_withMaxDepth v pos k c.session
  | call callee args pos =>
    refine call_map (Session.resets_withMaxDepth d) callee args fun f hf harity => ?_
    have hcounted := h.counted
    show d = _ ∨ _ ∧ c.session.depth < d
    by_cases hroom : c.session.depth < c.session.maxDepth
    · have hbegins := calls_of_begins hattempt ⟨⟨f, hf, harity⟩, hroom⟩
      exact .inr ⟨hroom, by omega⟩
    · exact .inl (by omega)

/-- A call is refused when as many calls are in progress as the limit allows. -/
theorem step_limited_of_full (h : c.Paced) {f : Closure} {args : List Value} {pos : Position}
    {k : Stack} (hattempt : c.attempt? = some (.call (.function f) args pos, k))
    (harity : args.length = f.decl.arity) (hfull : c.calls = d) :
    (c.limited d).step = ⟨.failed ⟨.callsTooDeep d, pos⟩, k, c.session.withMaxDepth d⟩ := by
  have hstep : (c.limited d).step = call (.function f) args pos k (c.session.withMaxDepth d) :=
    step_of_attempt (c := c.limited d) hattempt
  have hroom : (c.session.withMaxDepth d).maxDepth ≤ (c.session.withMaxDepth d).depth := by
    show d ≤ c.session.depth
    rw [h.counted, hfull]
  rw [hstep, call]
  simp only [harity, ne_eq, not_true_eq_false, if_false, if_pos hroom]
  rfl

end Configuration

/-! ## Runs under two limits -/

namespace Configuration

/-- The run `short` is cut where `full` would have more than `d` calls in progress. Step by step it
is the run `full`, up to the moment `n` when all values are there for a call at `pos` that would be
one too many. In `short` the call fails, and the run ends with the failure and with the output there
was. -/
structure CutAtCall (d n : Nat) (pos : Position) (full short : Configuration) : Prop where
  agree : ∀ m ≤ n, short.after m = (full.after m).limited d
  within : ∀ m ≤ n, (full.after m).calls ≤ d
  deeper : (full.after (n + 1)).calls = d + 1
  attempt : ∃ f args k, (full.after n).attempt? = some (.call (.function f) args pos, k) ∧
    args.length = f.decl.arity
  refused : (short.after (n + 1)).control = .failed ⟨.callsTooDeep d, pos⟩
  ends : ∃ steps s, short.run steps = some (.error ⟨.callsTooDeep d, pos⟩, s) ∧
    s.sink = (full.after n).session.sink

variable {full : Configuration} {d n : Nat}

/-- As long as no more calls are in progress than the lower limit allows, it changes nothing. -/
theorem after_limited (h : full.Paced) (hd : d ≤ full.session.maxDepth)
    (hcalls : ∀ m ≤ n, (full.after m).calls ≤ d) :
    (full.limited d).after n = (full.after n).limited d := by
  refine after_map fun m hm => step_limited (h.after m) ?_ (hcalls m (Nat.le_of_lt hm)) ?_
  · rwa [(settings_after full m).maxDepth]
  · rw [← after_succ_eq_step]
    exact hcalls (m + 1) hm

/-- A run that gets deeper than a lower limit is cut there. -/
theorem exists_cutAtCall (h : full.Paced) (hd : d ≤ full.session.maxDepth)
    (hstart : full.calls ≤ d) (hdeeper : ∃ n, d < (full.after n).calls) :
    ∃ n pos, CutAtCall d n pos full (full.limited d) := by
  obtain ⟨n, hwithin, hloss⟩ := exists_first_loss (P := fun c => c.calls ≤ d) hstart
    (hdeeper.imp fun n => Nat.not_le_of_lt)
  have hagree (m : Nat) (hm : m ≤ n) : (full.limited d).after m = (full.after m).limited d :=
    after_limited h hd fun i hi => hwithin i (Nat.le_trans hi hm)
  have hlast := hwithin n (Nat.le_refl n)
  rw [after_succ_eq_step] at hloss
  rcases calls_step (full.after n) with hle | ⟨callee, args, pos, k, hattempt, hbegins, hcalls⟩
  · exact absurd (Nat.le_trans hle hlast) hloss
  · obtain ⟨f, rfl, harity⟩ := hbegins.function
    have hrefused : (full.limited d).after (n + 1) =
        ⟨.failed ⟨.callsTooDeep d, pos⟩, k, (full.after n).session.withMaxDepth d⟩ := by
      rw [after_succ_eq_step, hagree n (Nat.le_refl n)]
      exact step_limited_of_full (h.after n) hattempt harity (by omega)
    refine ⟨n, pos, hagree, hwithin, ?_, ⟨f, args, k, hattempt, harity⟩, ?_, ?_⟩
    · rw [after_succ_eq_step]
      omega
    · rw [hrefused]
    · obtain ⟨steps, s, hrun, hsink⟩ := run_of_failed hrefused
      exact ⟨steps, s, hrun, hsink⟩

theorem paced_launch (policy : Policy) (sink : Sink) (depth : Nat) (program : Program) :
    (launch policy sink depth program).Paced :=
  (moment_launch policy sink depth program 0).paced

/-- **A lower limit on the nesting of calls only cuts a run short.** Whatever the program, the rule
for defining a name twice and the sink: if the run under the higher limit never has more calls in
progress than the lower limit allows, the run under the lower limit is the same and ends in the same
way. If it has, the run under the lower limit is cut at the first call that is one too many. At
every moment of an interpreter the calls in progress are counted, and within the limit. -/
theorem depth_limit_only_cuts_short (policy : Policy) (sink : Sink) (program : Program) {d d' : Nat}
    (hd : d ≤ d') :
    ((∀ n, ((launch policy sink d' program).after n).calls ≤ d) →
      (∀ n, (launch policy sink d program).after n =
        ((launch policy sink d' program).after n).limited d) ∧
      ∀ steps, (Session.alone policy sink d).interpret steps program =
        ((Session.alone policy sink d').interpret steps program).map fun (r, s) =>
          (r, s.withMaxDepth d)) ∧
    ((∃ n, d < ((launch policy sink d' program).after n).calls) →
      ∃ n pos, CutAtCall d n pos (launch policy sink d' program) (launch policy sink d program) ∧
        ∃ steps s, (Session.alone policy sink d).interpret steps program =
            some (.error ⟨.callsTooDeep d, pos⟩, s) ∧
          s.sink = ((launch policy sink d' program).after n).session.sink) ∧
    ∀ since c, Moment since c → c.Paced := by
  have hpaced := paced_launch policy sink d' program
  have hlimited : launch policy sink d program = (launch policy sink d' program).limited d := rfl
  refine ⟨fun hwithin => ⟨fun n => ?_, fun steps => ?_⟩, fun hdeeper => ?_, fun _ _ h => h.paced⟩
  · exact after_limited hpaced hd fun m _ => hwithin m
  · have hrun := run_map (n := steps) (after_limited hpaced hd fun m _ => hwithin m)
    rw [interpret_alone, interpret_alone, hlimited, limited, hrun, Option.map_map, Option.map_map]
    rfl
  · obtain ⟨n, pos, hcut⟩ := exists_cutAtCall hpaced hd (Nat.zero_le d) hdeeper
    refine ⟨n, pos, hcut, ?_⟩
    obtain ⟨steps, s, hrun, hsink⟩ := hcut.ends
    refine ⟨steps, { s with pending := .normal }, ?_, hsink⟩
    rw [interpret_alone, hlimited, hrun]
    rfl

/-- A function that prints its argument and calls itself with it. -/
def descent : Program :=
  [.function ⟨"f", [⟨"x", .start⟩],
      [.print (.ident "x" .start) .start,
        .expression (.call (.ident "f" .start) [.ident "x" .start] .start)], .start⟩,
    .expression (.call (.ident "f" .start) [.literal (.bool true) .start] .start)]

/-- The descent gets to a second call, where a limit of one cuts it. -/
theorem depth_limit_only_cuts_short_descent :
    1 ≤ 3 ∧ ∃ n pos,
      CutAtCall 1 n pos (launch .strict (.new none) 3 descent)
        (launch .strict (.new none) 1 descent) ∧
      ∃ steps s, (Session.alone .strict (.new none) 1).interpret steps descent =
          some (.error ⟨.callsTooDeep 1, pos⟩, s) ∧
        s.sink = ((launch .strict (.new none) 3 descent).after n).session.sink := by
  have hlimits : 1 ≤ 3 := by decide
  obtain ⟨-, hcut, -⟩ := depth_limit_only_cuts_short .strict (.new none) descent hlimits
  have hdeeper : 1 < ((launch .strict (.new none) 3 descent).after 20).calls := by
    decide +kernel
  exact ⟨hlimits, hcut ⟨20, hdeeper⟩⟩

end Configuration

end Script
