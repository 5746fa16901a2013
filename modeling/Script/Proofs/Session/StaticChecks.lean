import Script.Program
import Script.Proofs.Machine.Jumps
import Script.Proofs.Session.Soundness

/-!
# What the grammar checks need not be checked again

A program that a text compiles to runs without a jump that leaves a function body or the program,
and without a parameter that is refused, under either rule for defining a name twice.

- `Session.alone`, `Configuration.launch`: a session of its own for a program, and the machine at
  the start of the program in it.
- `Arena.bindParams_eq_none`: parameters with different names are bound in a new frame.
- `Configuration.Checked`: what is promised of every moment.
- `static_checks_suffice`: programs that compile keep the promise at every moment of their runs.
-/

namespace Script

/-! ## Parameters -/

namespace Arena

variable {a : Arena} {f : Frame}

/-- Setting a variable binds its name and no other. -/
theorem binds_put_of_ne {name other : String} (h : other ≠ name) (f : Frame) (v : Value) :
    (f.put name v).binds other = f.binds other := by
  unfold Frame.binds
  rw [Frame.get?_put_of_ne h]

/-- Parameters with different names are bound in a frame that binds none of them. -/
theorem bindParams_eq_none {params : List Param} {args : List Value}
    (hnames : (params.map (·.name)).Nodup) (hf : a.frame? a.current = some f)
    (hfree : ∀ p ∈ params, f.binds p.name = false) :
    (Configuration.bindParams a params args).2 = none := by
  induction params generalizing a f args with
  | nil => rfl
  | cons p params ih =>
    cases args with
    | nil => rfl
    | cons v args =>
      obtain ⟨hp, hnames⟩ := List.nodup_cons.1 hnames
      obtain ⟨hfirst, hfree⟩ := List.forall_mem_cons.1 hfree
      have hdefine : a.define p.name v = (a.put a.current p.name v, none) := by
        unfold Arena.define
        simp only [hf, hfirst, Bool.and_false, Bool.false_eq_true, if_false]
      have hframe : (a.put a.current p.name v).frame? (a.put a.current p.name v).current =
          some (f.put p.name v) := by
        show (a.put a.current p.name v).frame? a.current = _
        rw [frame?_put, if_pos rfl, hf]
        rfl
      unfold Configuration.bindParams
      rw [hdefine]
      refine ih hnames hframe fun q hq => ?_
      have hne : q.name ≠ p.name := fun heq => hp (List.mem_map.2 ⟨q, hq, heq⟩)
      rw [binds_put_of_ne hne]
      exact hfree q hq

/-- Parameters with different names are bound in the frame of a call. -/
theorem bindParams_pushed (h : a.Tidy) (captured : Handle) {params : List Param}
    (hnames : (params.map (·.name)).Nodup) (args : List Value) :
    (Configuration.bindParams ((a.push captured).1.enter (a.push captured).2) params args).2 =
      none := by
  have hf : ((a.push captured).1.enter (a.push captured).2).frame?
      ((a.push captured).1.enter (a.push captured).2).current = some (.empty captured) := by
    show (a.push captured).1.frame? (a.push captured).2 = _
    rw [h.frame?_push, if_pos rfl]
  exact bindParams_eq_none hnames hf fun p _ => rfl

end Arena

/-! ## Programs in sessions of their own -/

/-- A session of its own for a program. -/
def Session.alone (policy : Policy) (sink : Sink) (depth : Nat) : Session :=
  ((Session.new sink).withPolicy policy).withMaxDepth depth

namespace Configuration

/-- The machine at the start of a program, in a session of its own. -/
def launch (policy : Policy) (sink : Sink) (depth : Nat) (program : Program) : Configuration :=
  ⟨.done .normal, [.sequence program],
    ((Session.new sink).withPolicy policy).withMaxDepth depth⟩

theorem interpret_alone (steps : Nat) (policy : Policy) (sink : Sink) (depth : Nat)
    (program : Program) :
    (Session.alone policy sink depth).interpret steps program =
      ((launch policy sink depth program).run steps).map fun (r, s) =>
        (r.map fun _ => (), { s with pending := .normal }) := rfl

/-- Running a text is running the program that it compiles to. -/
theorem runSource_eq_launch {source : String} {program : Program}
    (h : compile source = .ok program) (steps : Nat) (policy : Policy) (sink : Sink) :
    runSource steps policy sink source =
      ((launch policy sink defaultMaxDepth program).run steps).map fun (r, s) =>
        (r.map fun _ => (), s.sink) := by
  unfold runSource
  rw [h]
  show Option.map _ (Option.map _ _) = _
  rw [Option.map_map]
  rfl

theorem moment_launch (policy : Policy) (sink : Sink) (depth : Nat) (program : Program) (n : Nat) :
    Moment 0 ((launch policy sink depth program).after n) := by
  have hpolicy : Session.Reached 0 ((Session.new sink).withPolicy policy) :=
    .answer (.new sink) (show Session.answer 0 _ (.setPolicy policy) = _ from rfl)
  have hdepth : Session.Reached 0 (((Session.new sink).withPolicy policy).withMaxDepth depth) :=
    .answer hpolicy (show Session.answer 0 _ (.setMaxDepth depth) = _ from rfl)
  exact ⟨_, .interpret program, _, n, hdepth, rfl, rfl⟩

/-- Before the first step there are no functions. -/
theorem all_launch {P : Closure → Prop} (policy : Policy) (sink : Sink) (depth : Nat)
    (program : Program) : (launch policy sink depth program).All P := by
  constructor
  · rintro fn (hfn | hfn)
    · cases hfn
    · cases hfn
  · rintro fn ⟨x, f, hf, hfn⟩
    have hnew : (Arena.new policy 0).frame? x = some f := hf
    rw [Arena.frame?_new] at hnew
    split at hnew
    · obtain rfl := Option.some.inj hnew
      cases hfn
    · cases hnew

/-- Nothing is declared yet, and the statements of the program stand in no loop. -/
theorem fits_launch {program : Program} (h : ∀ s ∈ program, s.Placed false) (policy : Policy)
    (sink : Sink) (depth : Nat) : (launch policy sink depth program).Fits := by
  have hprogram : ∀ s ∈ program, s.Fits [] := fun s hs => ⟨h s hs, fun _ hloop => nomatch hloop⟩
  exact ⟨ready_done (.cons hprogram .nil) rfl, all_launch policy sink depth program⟩

/-- At every moment all statements stand where they may stand. -/
theorem fits_after_launch {program : Program} (h : ∀ s ∈ program, s.Placed false)
    (policy : Policy) (sink : Sink) (depth n : Nat) :
    ((launch policy sink depth program).after n).Fits := by
  induction n with
  | zero => exact fits_launch h policy sink depth
  | succ n ih =>
    rw [after_succ_eq_step]
    exact ih.step (sound_moment (moment_launch policy sink depth program n)).arena.tidy

end Configuration

/-! ## What is promised -/

/-- The jump that a statement raises for a loop to clear. -/
def Stmt.loopJump? : Stmt → Option Signal
  | .exitLoop _ => some .exitLoop
  | .nextIteration _ => some .nextIteration
  | _ => none

/-- What a loop does when a jump reaches it: it ends, or goes on with its increment or its
condition. In either case the jump is gone. -/
def Signal.clearedBy (j : Signal) (condition : Expr) (body : Stmt) (increment : Option Expr)
    (below : Stack) : Control × Stack :=
  match j, increment with
  | .exitLoop, _ => (.done .normal, below)
  | _, some e => (.eval e, .loopNext condition body increment :: below)
  | _, none => (.eval condition, .loopTest condition body increment :: below)

namespace Configuration

/-- The control and the stack of a configuration. -/
def place (c : Configuration) : Control × Stack := (c.control, c.stack)

/-- Something has ended by itself or by a return. -/
def EndsByReturn (o : Outcome) : Prop := o.asSignal = .normal ∨ ∃ v, o.asSignal = .returned v

/-- What the checks of the grammar promise of a moment of a run. -/
structure Checked (c : Configuration) : Prop where
  /-- A function body that has ended without a failure ended by itself or by a return. -/
  function : ∀ o f frame caller k, c.place = (.done o, .leaveCall f frame caller :: k) →
    EndsByReturn o
  /-- A program that has ended without a failure ended by itself or by a return. -/
  program : ∀ o, c.place = (.done o, []) → EndsByReturn o
  /-- A jump out of a loop or to its next iteration, about to be raised, is inside the body of the
  innermost loop that runs in the same call. In the next steps it passes the blocks and statement
  lists up to this loop, which then clears it. -/
  jump : ∀ s j, c.control = .exec s → s.loopJump? = some j →
    ∃ above condition body increment below,
      c.stack = above ++ .loopBody condition body increment :: below ∧
      (∀ p ∈ above, p.passes = true) ∧ s.Inside body ∧
      (∀ i ≤ above.length, (c.after (i + 1)).place =
        (.done (.signal j), above.drop i ++ .loopBody condition body increment :: below)) ∧
      (c.after (above.length + 2)).place = j.clearedBy condition body increment below
  /-- A call of any function there is binds its parameters. -/
  parameters : ∀ fn, c.Holds fn ∨ c.session.arena.Binds fn → ∀ args,
    (bindParams ((c.session.arena.push fn.captured).1.enter
      (c.session.arena.push fn.captured).2) fn.decl.params args).2 = none

variable {c : Configuration} {o : Outcome}

/-- Where no loop is left to be run, nothing ends by a jump to a loop. -/
theorem endsByReturn_of_fits (h : c.Fits) (hcontrol : c.control = .done o)
    (hloop : Stack.enclosing c.stack = none) : EndsByReturn o := by
  have hseeks := h.ready.control
  rw [hcontrol, Control.Fits, hloop] at hseeks
  cases hsignal : o.asSignal with
  | normal => exact .inl hsignal
  | returned v => exact .inr ⟨v, hsignal⟩
  | exitLoop =>
    rw [hsignal] at hseeks
    cases hseeks rfl
  | nextIteration =>
    rw [hsignal] at hseeks
    cases hseeks rfl

/-- A loop clears the jumps that reach it. -/
theorem step_loopBody {j : Signal} (hj : j.seeksLoop = true) (condition : Expr) (body : Stmt)
    (increment : Option Expr) (below : Stack) (t : Session) :
    (step ⟨.done (.signal j), .loopBody condition body increment :: below, t⟩).place =
      j.clearedBy condition body increment below := by
  cases j with
  | exitLoop => rfl
  | nextIteration => cases increment <;> rfl
  | normal => cases hj
  | returned v => cases hj

/-- A jump raised inside a loop is cleared by it. -/
theorem cleared_of_fits (h : c.Fits) {s : Stmt} {j : Signal} (hcontrol : c.control = .exec s)
    (hj : s.loopJump? = some j) :
    ∃ above condition body increment below,
      c.stack = above ++ .loopBody condition body increment :: below ∧
      (∀ p ∈ above, p.passes = true) ∧ s.Inside body ∧
      (∀ i ≤ above.length, (c.after (i + 1)).place =
        (.done (.signal j), above.drop i ++ .loopBody condition body increment :: below)) ∧
      (c.after (above.length + 2)).place = j.clearedBy condition body increment below := by
  obtain ⟨control, k, t⟩ := c
  obtain rfl : control = .exec s := hcontrol
  have hs : s.Fits k := h.ready.control
  -- raising the jump is the first step
  have hraised : j.seeksLoop = true ∧ (Stack.enclosing k).isSome = true ∧
      step ⟨.exec s, k, t⟩ = ⟨.done (.signal j), k, t⟩ := by
    cases s with
    | exitLoop pos =>
      obtain rfl := Option.some.inj hj
      exact ⟨rfl, Stmt.placed_exitLoop_iff.1 hs.placed, rfl⟩
    | nextIteration pos =>
      obtain rfl := Option.some.inj hj
      exact ⟨rfl, Stmt.placed_nextIteration_iff.1 hs.placed, rfl⟩
    | _ => cases hj
  obtain ⟨hseeks, hloop, hstep⟩ := hraised
  obtain ⟨body, hbody⟩ := Option.isSome_iff_exists.1 hloop
  obtain ⟨above, condition, increment, below, rfl, habove⟩ := Stack.enclosing_eq_some_iff.1 hbody
  refine ⟨above, condition, body, increment, below, rfl, habove, hs.inside body hbody, ?_, ?_⟩
  · intro i hi
    obtain ⟨t', hafter⟩ := after_jump habove hseeks hi
    rw [after_succ, hstep, hafter]
    rfl
  · obtain ⟨t', hafter⟩ := after_jump habove hseeks (Nat.le_refl above.length)
    rw [after_succ, hstep, after_succ_eq_step, hafter, List.drop_length, List.nil_append]
    exact step_loopBody hseeks ..

/-- **The checks made on a program suffice for its runs.** Whatever text compiles, under whatever
rule for defining a name twice, and whatever limit on the nesting of calls: at every moment of the
run, no function body and no program ends by a jump to a loop, every such jump is cleared by the
loop it is in, and no parameter is refused. -/
theorem static_checks_suffice {source : String} {program : Program}
    (h : compile source = .ok program) (policy : Policy) (sink : Sink) (depth n : Nat) :
    ((launch policy sink depth program).after n).Checked := by
  have hfits := fits_after_launch (compile_placed h) policy sink depth n
  have htidy := (sound_moment (moment_launch policy sink depth program n)).arena.tidy
  generalize (launch policy sink depth program).after n = c at hfits htidy
  constructor
  · intro o f frame caller k hplace
    obtain ⟨hcontrol, hstack⟩ := Prod.mk.inj hplace
    exact endsByReturn_of_fits hfits hcontrol (by rw [hstack]; rfl)
  · intro o hplace
    obtain ⟨hcontrol, hstack⟩ := Prod.mk.inj hplace
    exact endsByReturn_of_fits hfits hcontrol (by rw [hstack]; rfl)
  · intro s j hcontrol hj
    exact cleared_of_fits hfits hcontrol hj
  · intro fn hfn args
    have hplaced : fn.decl.Placed :=
      hfn.elim (hfits.functions.held fn) (hfits.functions.bound fn)
    exact Arena.bindParams_pushed htidy fn.captured hplaced.names args

theorem eq_ok_of_toOption_eq_some {α : Type} {result : Except Diagnostic α} {a : α}
    (h : result.toOption = some a) : result = .ok a := by
  cases result with
  | error d => cases h
  | ok found => exact congrArg Except.ok (Option.some.inj h)

/-- A loop in a function is about to be left from a block in its body. -/
theorem static_checks_suffice_leavesLoop :
    ∃ program s,
      compile "fun f(a, b) \x7b while (a) \x7b break; \x7d \x7d f(true, nil);" = .ok program ∧
      ((launch .strict (.new none) 1 program).after 17).control = .exec s ∧
      s.loopJump?.isSome = true ∧ ((launch .strict (.new none) 1 program).after 17).Checked := by
  have hraises : ((compile
      "fun f(a, b) \x7b while (a) \x7b break; \x7d \x7d f(true, nil);").toOption.any fun program =>
        match ((launch .strict (.new none) 1 program).after 17).control with
        | .exec s => s.loopJump?.isSome
        | _ => false) = true := by decide +kernel
  obtain ⟨program, hprogram, hraises⟩ := (Option.any_eq_true ..).1 hraises
  have hcompile := eq_ok_of_toOption_eq_some hprogram
  split at hraises
  · rename_i s hcontrol
    exact ⟨program, s, hcompile, hcontrol, hraises,
      static_checks_suffice hcompile .strict (.new none) 1 17⟩
  · cases hraises

end Configuration

end Script
