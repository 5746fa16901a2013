import Mathlib.Data.Nat.Find
import Script.Proofs.Arena.Collection
import Script.Proofs.Machine.Effects
import Script.Proofs.Session.Requests

/-!
# Machines in lockstep

Two machines in the same state, but for the limit on the nesting of calls or for the sink, do the
same until the difference is looked at. Only a call looks at the limit, and only a print statement
at the sink.

- `Attempt`, `Configuration.attempt?`: the call or the line of output that a step is about.
- `Session.Resets`: changes of a session that leave the frames and the count of calls alone.
- `step_map`: such a change commutes with every step but attempts; `after_map` and `run_map` follow
  it through whole runs.
- `after_failed`: what becomes of a configuration that has failed.
-/

namespace Script

/-! ## Attempts -/

/-- What may be refused because of a limit: a call, or a line of output. -/
inductive Attempt
  | call (callee : Value) (args : List Value) (pos : Position)
  | print (v : Value) (pos : Position)

namespace Configuration

/-- What a configuration attempts in its next step, when all values it takes are there, and what
remains to be done behind it. -/
def attempt? (c : Configuration) : Option (Attempt × Stack) :=
  match c.control, c.stack with
  | .done o, .callee [] pos :: k => some (.call o.asValue [] pos, k)
  | .done o, .argument callee before [] pos :: k =>
    some (.call callee (o.asValue :: before).reverse pos, k)
  | .done o, .print pos :: k => some (.print o.asValue pos, k)
  | _, _ => none

/-- The step of an attempt. -/
def make : Attempt → Stack → Session → Configuration
  | .call callee args pos => call callee args pos
  | .print v pos => printAt v pos

variable {c : Configuration} {k : Stack}

/-- An attempt is the step with the last value that it takes, which leaves no scope. -/
theorem attempt?_eq_some {a : Attempt} (h : c.attempt? = some (a, k)) :
    ∃ o p, c.control = .done o ∧ c.stack = p :: k ∧ p.scope? = none ∧
      ∀ s, resume p o k s = make a k s := by
  obtain ⟨control, stack, s⟩ := c
  simp only [attempt?] at h
  split at h
  all_goals simp only [Option.some.injEq, Prod.mk.injEq, reduceCtorEq] at h
  all_goals
    obtain ⟨rfl, rfl⟩ := h
    exact ⟨_, _, rfl, rfl, rfl, fun s => rfl⟩

theorem step_of_attempt {a : Attempt} (h : c.attempt? = some (a, k)) :
    c.step = make a k c.session := by
  obtain ⟨o, p, hcontrol, hstack, -, hresume⟩ := attempt?_eq_some h
  obtain ⟨control, stack, s⟩ := c
  obtain rfl : control = .done o := hcontrol
  obtain rfl : stack = p :: k := hstack
  exact hresume s

end Configuration

/-! ## Changes that most steps do not notice -/

/-- A change of a session that leaves alone what every step may work with, and does not depend on
it. -/
structure Session.Resets (change : Session → Session) : Prop where
  arena (s : Session) : (change s).arena = s.arena
  depth (s : Session) : (change s).depth = s.depth
  held (s : Session) : (change s).held = s.held
  update (s : Session) (arena : Arena) (depth : Nat) :
    change { s with arena := arena, depth := depth } =
      { change s with arena := arena, depth := depth }

namespace Session

variable {change : Session → Session}

theorem resets_withMaxDepth (depth : Nat) : Resets (·.withMaxDepth depth) :=
  ⟨fun _ => rfl, fun _ => rfl, fun _ => rfl, fun _ _ _ => rfl⟩

/-- A change of the sink alone. -/
theorem resets_sink (f : Sink → Sink) : Resets fun s => { s with sink := f s.sink } :=
  ⟨fun _ => rfl, fun _ => rfl, fun _ => rfl, fun _ _ _ => rfl⟩

theorem Resets.setArena (h : Resets change) (s : Session) (arena : Arena) :
    change { s with arena := arena } = { change s with arena := arena } := by
  refine (h.update s arena s.depth).trans ?_
  rw [← h.depth s]

end Session

namespace Configuration

/-- The configuration over a changed session. -/
def map (change : Session → Session) (c : Configuration) : Configuration :=
  { c with session := change c.session }

variable {change : Session → Session} {c : Configuration} {k : Stack} {s : Session}
variable {name : String} {v : Value} {pos : Position}

@[simp] theorem map_mk (control : Control) :
    map change ⟨control, k, s⟩ = ⟨control, k, change s⟩ := rfl

/-- A step that sets the frames and the count of calls. -/
theorem update_map (h : Session.Resets change) (control : Control) (arena : Arena) (depth : Nat) :
    (⟨control, k, { change s with arena := arena, depth := depth }⟩ : Configuration) =
      map change ⟨control, k, { s with arena := arena, depth := depth }⟩ :=
  congrArg (Configuration.mk control k) (h.update s arena depth).symm

/-- A step that sets the frames. -/
theorem setArena_map (h : Session.Resets change) (control : Control) (arena : Arena) :
    (⟨control, k, { change s with arena := arena }⟩ : Configuration) =
      map change ⟨control, k, { s with arena := arena }⟩ :=
  congrArg (Configuration.mk control k) (h.setArena s arena).symm

theorem yield_map (r : Except Fault Value) :
    yield r pos k (change s) = (yield r pos k s).map change := by
  cases r <;> rfl

theorem defineAt_map (h : Session.Resets change) :
    defineAt name v pos k (change s) = (defineAt name v pos k s).map change := by
  unfold defineAt
  rw [h.arena]
  split <;> exact setArena_map h ..

theorem assignAt_map (h : Session.Resets change) :
    assignAt name v pos k (change s) = (assignAt name v pos k s).map change := by
  unfold assignAt
  rw [h.arena]
  split <;> exact setArena_map h ..

/-- A call does the same if the limit is the same, or leaves room in both cases. -/
theorem call_map (h : Session.Resets change) (callee : Value) (args : List Value)
    (hroom : ∀ f, callee = .function f → args.length = f.decl.arity →
      (change s).maxDepth = s.maxDepth ∨ s.depth < s.maxDepth ∧ s.depth < (change s).maxDepth) :
    call callee args pos k (change s) = (call callee args pos k s).map change := by
  cases callee with
  | function f =>
    by_cases harity : args.length = f.decl.arity
    · unfold call
      simp only [harity, ne_eq, not_true_eq_false, if_false, h.depth, h.arena]
      have hroom := hroom f rfl harity
      by_cases hfull : s.maxDepth ≤ s.depth
      · have hsame : (change s).maxDepth = s.maxDepth := hroom.resolve_right fun h => by omega
        rw [if_pos hfull, hsame, if_pos hfull]
        rfl
      · rw [if_neg hfull, if_neg (by omega)]
        split <;> exact update_map h ..
    · simp only [call, ne_eq, harity, not_false_eq_true, if_true, map_mk]
  | _ => rfl

theorem evaluate_map (h : Session.Resets change) (e : Expr) :
    evaluate e k (change s) = (evaluate e k s).map change := by
  cases e with
  | ident name pos =>
    simp only [evaluate, h.arena]
    split <;> rfl
  | _ => rfl

theorem execute_map (h : Session.Resets change) (st : Stmt) :
    execute st k (change s) = (execute st k s).map change := by
  cases st with
  | declare name initial pos =>
    cases initial with
    | none => exact defineAt_map h
    | some e => rfl
  | block body =>
    simp only [execute, enterBlock, h.arena]
    exact setArena_map h ..
  | function decl =>
    simp only [execute, h.arena]
    rw [← h.setArena]
    exact defineAt_map h
  | giveBack value pos => cases value <;> rfl
  | _ => rfl

theorem unwind_map (h : Session.Resets change) (p : Continuation) (d : Diagnostic) :
    unwind p d k (change s) = (unwind p d k s).map change := by
  cases p with
  | leaveBlock frame caller =>
    simp only [unwind, h.arena, h.held]
    exact setArena_map h ..
  | leaveCall f frame caller =>
    simp only [unwind, h.arena, h.depth, h.held]
    exact update_map h ..
  | _ => rfl

theorem resume_map (h : Session.Resets change) (p : Continuation) (o : Outcome)
    (hattempt : ∀ a below, attempt? ⟨.done o, p :: k, s⟩ = some (a, below) →
      make a below (change s) = (make a below s).map change) :
    resume p o k (change s) = (resume p o k s).map change := by
  cases p with
  | assign name pos => exact assignAt_map h
  | unary op pos => exact yield_map _
  | binaryRight op left pos => exact yield_map _
  | logicalLeft op right =>
    simp only [resume]
    split <;> rfl
  | callee args pos =>
    cases args with
    | nil => exact hattempt _ _ rfl
    | cons e args => rfl
  | argument callee before after pos =>
    cases after with
    | nil => exact hattempt _ _ rfl
    | cons e after => rfl
  | print pos => exact hattempt _ _ rfl
  | define name pos => exact defineAt_map h
  | branch whenTrue whenFalse =>
    simp only [resume]
    split
    · rfl
    · split <;> rfl
  | loopTest condition body increment =>
    simp only [resume]
    split <;> rfl
  | loopBody condition body increment =>
    simp only [resume]
    split
    · rfl
    · rfl
    · split <;> rfl
  | sequence rest =>
    simp only [resume]
    split <;> rfl
  | leaveBlock frame caller =>
    simp only [resume, h.arena, h.held]
    exact setArena_map h ..
  | leaveCall f frame caller =>
    simp only [resume, h.arena, h.depth, h.held]
    exact update_map h ..
  | _ => rfl

/-- **A step that attempts nothing does not notice a reset**, and an attempt passes it on if it has
the same success. -/
theorem step_map (h : Session.Resets change)
    (hattempt : ∀ a k, c.attempt? = some (a, k) →
      make a k (change c.session) = (make a k c.session).map change) :
    (c.map change).step = c.step.map change := by
  obtain ⟨control, k, s⟩ := c
  cases control with
  | eval e => exact evaluate_map h e
  | exec st => exact execute_map h st
  | done o =>
    cases k with
    | nil => rfl
    | cons p k => exact resume_map h p o hattempt
  | failed d =>
    cases k with
    | nil => rfl
    | cons p k => exact unwind_map h p d

/-- Nothing but a print statement touches the sink. -/
theorem sink_step (h : ∀ v pos k, c.attempt? ≠ some (.print v pos, k)) :
    c.step.session.sink = c.session.sink := by
  -- replacing the sink by itself commutes with the step
  have hreset : (c.map fun s => { s with sink := c.session.sink }).step =
      c.step.map fun s => { s with sink := c.session.sink } := by
    refine step_map (Session.resets_sink fun _ => c.session.sink) fun a k ha => ?_
    cases a with
    | call callee args pos =>
      exact call_map (Session.resets_sink fun _ => c.session.sink) callee args
        fun f _ _ => .inl rfl
    | print v pos => exact absurd ha (h v pos k)
  exact congrArg (·.session.sink) hreset

/-! ## Runs -/

/-- A change that commutes with the first steps can be made before or after them. -/
theorem after_map {n : Nat}
    (h : ∀ m < n, ((c.after m).map change).step = (c.after m).step.map change) :
    (c.map change).after n = (c.after n).map change := by
  induction n with
  | zero => rfl
  | succ n ih =>
    rw [after_succ_eq_step, after_succ_eq_step, ih fun m hm => h m (Nat.lt_succ_of_lt hm)]
    exact h n (Nat.lt_succ_self n)

theorem ended?_map (c : Configuration) :
    (c.map change).ended? = c.ended?.map fun (e, s) => (e, change s) := by
  obtain ⟨control, stack, s⟩ := c
  cases stack <;> cases control <;> rfl

/-- A run ends as it does without the change, if the change could be made afterwards as well. -/
theorem run_map {n : Nat} (h : (c.map change).after n = (c.after n).map change) :
    (c.map change).run n = (c.run n).map fun (e, s) => (e, change s) := by
  rw [run_eq_after, run_eq_after, h, ended?_map]

/-- What does not hold at every moment is lost by some step for the first time. -/
theorem exists_first_loss {P : Configuration → Prop} (hstart : P c) (h : ∃ n, ¬ P (c.after n)) :
    ∃ n, (∀ m ≤ n, P (c.after m)) ∧ ¬ P (c.after (n + 1)) := by
  classical
  obtain ⟨n, hn⟩ : ∃ n, Nat.find h = n + 1 :=
    Nat.exists_eq_succ_of_ne_zero fun hzero => Nat.find_spec h (by rw [hzero]; exact hstart)
  refine ⟨n, fun m hm => ?_, hn ▸ Nat.find_spec h⟩
  exact not_not.1 (Nat.find_min h (by omega))

/-! ## Failures -/

/-- A failure leaves one part of the stack after the other, and does nothing else: nothing is
printed, and the frames that are left hold what they held. -/
theorem unwind_eq (p : Continuation) (d : Diagnostic) (k : Stack) (s : Session) :
    ∃ t : Session, unwind p d k s = ⟨.failed d, k, t⟩ ∧ t.sink = s.sink ∧
      t.arena.Within s.arena := by
  cases p with
  | leaveBlock frame caller =>
    exact ⟨_, rfl, rfl, Arena.within_release (s.arena.enter caller) frame _⟩
  | leaveCall f frame caller =>
    exact ⟨_, rfl, rfl, Arena.within_release (s.arena.enter caller) frame _⟩
  | _ => exact ⟨s, rfl, rfl, .refl _⟩

/-- **A failure is never taken up**: no statement is executed and no expression evaluated from then
on. -/
theorem after_failed (d : Diagnostic) (k : Stack) (s : Session) (n : Nat) :
    ∃ t : Session, after n ⟨.failed d, k, s⟩ = ⟨.failed d, k.drop n, t⟩ ∧ t.sink = s.sink ∧
      t.arena.Within s.arena := by
  induction n generalizing k s with
  | zero => exact ⟨s, rfl, rfl, .refl _⟩
  | succ n ih =>
    cases k with
    | nil =>
      rw [after_succ, step_of_ended rfl, List.drop_nil]
      simpa only [List.drop_nil] using ih [] s
    | cons p k =>
      obtain ⟨t, hstep, hsink, hwithin⟩ := unwind_eq p d k s
      obtain ⟨u, hafter, hsink', hwithin'⟩ := ih k t
      refine ⟨u, ?_, hsink'.trans hsink, hwithin'.trans hwithin⟩
      rw [after_succ, show step ⟨.failed d, p :: k, s⟩ = unwind p d k s from rfl, hstep, hafter,
        List.drop_succ_cons]

theorem after_add (n m : Nat) (c : Configuration) : c.after (n + m) = (c.after n).after m := by
  induction n generalizing c with
  | zero => rw [Nat.zero_add]; rfl
  | succ n ih => rw [Nat.add_right_comm, after_succ, ih, after_succ]

/-- Behind a failure, the control, the output and the values of variables stay as they are. -/
theorem after_of_failed {n m : Nat} {d : Diagnostic} (h : c.after n = ⟨.failed d, k, s⟩)
    (hm : n ≤ m) : (c.after m).control = .failed d ∧ (c.after m).session.sink = s.sink ∧
      (c.after m).session.arena.Within s.arena := by
  obtain ⟨more, rfl⟩ := Nat.exists_eq_add_of_le hm
  obtain ⟨t, hafter, hsink, hwithin⟩ := after_failed d k s more
  rw [after_add, h, hafter]
  exact ⟨rfl, hsink, hwithin⟩

/-- A run that meets a failure ends with it, and with the output there was. -/
theorem run_of_failed {n : Nat} {d : Diagnostic} (h : c.after n = ⟨.failed d, k, s⟩) :
    ∃ (steps : Nat) (t : Session), c.run steps = some (.error d, t) ∧ t.sink = s.sink := by
  obtain ⟨t, hafter, hsink, -⟩ := after_failed d k s k.length
  refine ⟨n + k.length, t, ?_, hsink⟩
  rw [run_eq_after, after_add, h, hafter, List.drop_length]
  rfl

end Configuration

end Script
