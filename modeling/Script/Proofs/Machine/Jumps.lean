import Script.Proofs.Grammar.Placement
import Script.Proofs.Machine.Courses
import Script.Proofs.Machine.Soundness

/-!
# Jumps and the loops they end in

A jump is raised at a statement, passes the blocks and statement lists around it, and is cleared by
a loop. Which loop this is can be told from the stack before the jump is raised: the innermost one
above the next call. On programs that the grammar admits there always is one.

- `origin_step`, `Configuration.All`, `All.step`: where functions come from, and what holds of all
  of them as long as it holds of those that are declared.
- `Stack.enclosing`: the body of the innermost loop of the same call.
- `Stmt.Fits`, `Continuation.Fits`, `Configuration.Fits`: statements stand where they may stand, and
  jumps have a loop to end in; `Fits.step` says that a step keeps this.
- `Contained`: what a step keeps of this if nothing is known about the functions that are called.
- `Stack.enclosing_eq_some_iff`, `after_jump`: what is between a jump and its loop, and how it is
  passed.
-/

namespace Script

/-! ## Functions in circulation -/

namespace Configuration

variable {P : Closure → Prop} {c : Configuration}

/-- Every function that is held, or that a variable binds, has the property `P`. -/
structure All (P : Closure → Prop) (c : Configuration) : Prop where
  held : ∀ fn, c.Holds fn → P fn
  bound : ∀ fn, c.session.arena.Binds fn → P fn

/-- **Functions come from declarations that are executed**, and from nowhere else. -/
theorem origin_step (c : Configuration) (htidy : c.session.arena.Tidy) {fn : Closure}
    (hfn : c.step.Holds fn ∨ c.step.session.arena.Binds fn) :
    (c.Holds fn ∨ c.session.arena.Binds fn) ∨
      ∃ decl, c.control = .exec (.function decl) ∧ fn = (c.session.arena.closure decl).2 := by
  cases (effect_step c).change with
  | none arena depth scopes holds =>
    rcases hfn with hfn | hfn
    · exact .inl (holds fn hfn)
    · exact .inl (.inr (arena ▸ hfn))
  | put x name v arena value depth scopes holds =>
    rcases hfn with hfn | hfn
    · exact .inl (.inl (holds fn hfn))
    · rw [arena] at hfn
      exact .inl ((Arena.binds_put hfn).symm.imp (value fn) id)
  | make decl arena depth scopes holds declared =>
    rcases hfn with hfn | hfn
    · exact .inl (.inl (holds fn hfn))
    · rw [arena] at hfn
      rcases Arena.binds_define hfn with hfn | hfn
      · exact .inl (.inr (Arena.binds_closure hfn))
      · exact .inr ⟨decl, declared, List.mem_singleton.1 hfn⟩
  | enter parent params args calls within arena values depth scopes holds =>
    rcases hfn with hfn | hfn
    · exact .inl (.inl (holds fn hfn))
    · rw [arena] at hfn
      refine .inl (Arena.bindParams_induction
        (P := fun a => a.Binds fn → c.Holds fn ∨ c.session.arena.Binds fn) params ?_ ?_ hfn)
      · intro b name v hv hb hfn
        exact (Arena.binds_define hfn).elim hb fun hfn => .inl (values v hv fn hfn)
      · exact fun hfn => .inr (htidy.binds_push parent hfn)
  | leave frame caller calls outside arena told depth scopes holds =>
    rcases hfn with hfn | hfn
    · exact .inl (.inl (holds fn hfn))
    · rw [arena] at hfn
      exact .inl (.inr
        ((Arena.within_release (c.session.arena.enter caller) frame outside).binds hfn))

/-- What holds of all functions and of those that are declared holds of all functions afterwards. -/
theorem All.step (h : c.All P) (htidy : c.session.arena.Tidy)
    (hmake : ∀ decl, c.control = .exec (.function decl) → ∀ fn : Closure, fn.decl = decl → P fn) :
    c.step.All P := by
  have hall : ∀ fn, c.step.Holds fn ∨ c.step.session.arena.Binds fn → P fn := by
    intro fn hfn
    rcases origin_step c htidy hfn with (hfn | hfn) | ⟨decl, hdecl, rfl⟩
    · exact h.held fn hfn
    · exact h.bound fn hfn
    · exact hmake decl hdecl _ rfl
  exact ⟨fun fn hfn => hall fn (.inl hfn), fun fn hfn => hall fn (.inr hfn)⟩

end Configuration

/-! ## Loops around a statement -/

/-- The body of the innermost loop that is running in the same call, if nothing but blocks and
statement lists are to be left before it. -/
def Stack.enclosing : Stack → Option Stmt
  | .sequence _ :: k => Stack.enclosing k
  | .leaveBlock _ _ :: k => Stack.enclosing k
  | .loopBody _ body _ :: _ => some body
  | _ => none

/-- A statement that may be executed on top of the stack `k`, inside the innermost loop there. -/
structure Stmt.Fits (s : Stmt) (k : Stack) : Prop where
  placed : s.Placed (Stack.enclosing k).isSome
  inside : ∀ body ∈ Stack.enclosing k, s.Inside body

/-- The statements that a part of the stack holds may be executed there. -/
def Continuation.Fits (p : Continuation) (k : Stack) : Prop :=
  match p with
  | .sequence rest => ∀ s ∈ rest, s.Fits k
  | .branch whenTrue whenFalse => whenTrue.Fits k ∧ ∀ s ∈ whenFalse, s.Fits k
  | .loopTest _ body _ => body.Placed true
  | .loopBody _ body _ => body.Placed true
  | .loopNext _ body _ => body.Placed true
  | _ => True

/-- Every part of a stack fits what is below it. -/
inductive Stack.Fits : Stack → Prop
  | nil : Stack.Fits []
  | cons {p : Continuation} {k : Stack} : p.Fits k → Stack.Fits k → Stack.Fits (p :: k)

/-- A statement that is to be executed fits the stack, and a jump that is on its way has a loop
there. -/
def Control.Fits (control : Control) (k : Stack) : Prop :=
  match control with
  | .exec s => s.Fits k
  | .done o => o.asSignal.seeksLoop = true → (Stack.enclosing k).isSome = true
  | _ => True

namespace Configuration

/-- The control and the stack fit. -/
structure Ready (c : Configuration) : Prop where
  control : c.control.Fits c.stack
  stack : Stack.Fits c.stack

/-- The control, the stack, and the declarations of all functions fit. -/
structure Fits (c : Configuration) : Prop where
  ready : c.Ready
  functions : c.All fun fn => fn.decl.Placed

end Configuration

/-! ## Statements that fit -/

variable {s : Stmt} {k : Stack} {o : Outcome}

theorem Stmt.Fits.block {body : List Stmt} (h : (Stmt.block body).Fits k) :
    ∀ t ∈ body, t.Fits k := by
  intro t ht
  refine ⟨Stmt.placed_block_iff.1 h.placed t ht, fun loop hloop => ?_⟩
  exact (Stmt.Inside.block ht .self).trans (h.inside loop hloop)

theorem Stmt.Fits.branch {condition : Expr} {whenTrue : Stmt} {whenFalse : Option Stmt}
    {pos : Position} (h : (Stmt.branch condition whenTrue whenFalse pos).Fits k) :
    whenTrue.Fits k ∧ ∀ t ∈ whenFalse, t.Fits k := by
  obtain ⟨htrue, hfalse⟩ := Stmt.placed_branch_iff.1 h.placed
  refine ⟨⟨htrue, fun loop hloop => ?_⟩, fun t ht => ⟨hfalse t ht, fun loop hloop => ?_⟩⟩
  · exact (Stmt.Inside.whenTrue .self).trans (h.inside loop hloop)
  · obtain rfl : whenFalse = some t := ht
    exact (Stmt.Inside.whenFalse .self).trans (h.inside loop hloop)

/-- Blocks and statement lists hide no loop. -/
theorem Stmt.Fits.sequence {rest : List Stmt} (h : s.Fits k) : s.Fits (.sequence rest :: k) :=
  ⟨h.placed, h.inside⟩

theorem Stmt.Fits.leaveBlock {frame caller : Handle} (h : s.Fits k) :
    s.Fits (.leaveBlock frame caller :: k) :=
  ⟨h.placed, h.inside⟩

/-- The body of a loop fits on top of its loop. -/
theorem Stmt.fits_loopBody {condition : Expr} {increment : Option Expr} (h : s.Placed true) :
    s.Fits (.loopBody condition s increment :: k) := by
  refine ⟨h, ?_⟩
  rintro loop ⟨⟩
  exact .self

/-- The statements of a function body fit on top of its call. -/
theorem FunDecl.Placed.fits {f : Closure} {frame caller : Handle} (h : f.decl.Placed) :
    ∀ t ∈ f.decl.body, t.Fits (.leaveCall f frame caller :: k) :=
  fun t ht => ⟨h.body t ht, fun _ hloop => nomatch hloop⟩

theorem Stack.Fits.of_append {top : Stack} (h : Stack.Fits (top ++ k)) : Stack.Fits k := by
  induction top with
  | nil => exact h
  | cons p top ih =>
    cases h with
    | cons hp htop => exact ih htop

/-! ## One step -/

namespace Configuration

variable {t : Session} {x y : Control} {taken put : Stack} {p : Continuation}

/-- An outcome that seeks no loop is ready on any stack. -/
theorem ready_done (hk : Stack.Fits k) (ho : o.asSignal.seeksLoop = false) :
    Ready ⟨.done o, k, t⟩ :=
  ⟨fun h => absurd (ho.symm.trans h) Bool.false_ne_true, hk⟩

/-- What waits for an expression fits as what has it evaluated did. -/
theorem Awaits.fits {e : Expr} (h : Awaits x taken e p) (hx : x.Fits (taken ++ k))
    (htaken : Stack.Fits (taken ++ k)) : p.Fits k := by
  cases h with
  | branch condition whenTrue whenFalse pos => exact hx.branch
  | loop condition body increment pos => exact Stmt.placed_loop_iff.1 hx.placed
  | increment | bodyEnded | incremented =>
    cases htaken with
    | cons hp hk => exact hp
  | _ => trivial

theorem Runs.fits (h : Runs o p s put) (hp : p.Fits k) (hk : Stack.Fits k) :
    s.Fits (put ++ k) ∧ Stack.Fits (put ++ k) := by
  cases h with
  | whenTrue whenTrue whenFalse => exact ⟨hp.1, hk⟩
  | whenFalse whenTrue whenFalse => exact ⟨hp.2 _ rfl, hk⟩
  | body condition body increment =>
    have hbody : (Continuation.loopBody condition s increment).Fits k := hp
    exact ⟨Stmt.fits_loopBody hp, .cons hbody hk⟩
  | next st rest =>
    obtain ⟨hfirst, hrest⟩ := List.forall_mem_cons.1 hp
    exact ⟨hfirst.sequence, .cons hrest hk⟩

/-- A step leaves what it has found fitting, but for a call: of this nothing is known but its
function. -/
theorem Course.fits_or_calls (h : Course t x taken y put) (hx : x.Fits (taken ++ k))
    (htaken : Stack.Fits (taken ++ k)) :
    (y.Fits (put ++ k) ∧ Stack.Fits (put ++ k)) ∨
      ∃ above f frame caller, put = above ++ [.leaveCall f frame caller] ∧
        (f.decl.Placed → y.Fits (put ++ k) ∧ Stack.Fits (put ++ k)) := by
  have hk : Stack.Fits k := htaken.of_append
  cases h with
  | group inner pos => exact .inl ⟨trivial, hk⟩
  | awaits hawaits => exact .inl ⟨trivial, .cons (hawaits.fits hx htaken) hk⟩
  | runs hruns =>
    cases htaken with
    | cons hp hk => exact .inl (hruns.fits hp hk)
  | ends hends ho => exact .inl ⟨fun hseeks => absurd (ho.symm.trans hseeks) Bool.false_ne_true, hk⟩
  | declares decl => exact .inl ⟨fun hseeks => (nomatch hseeks), hk⟩
  | exitLoop pos => exact .inl ⟨fun _ => Stmt.placed_exitLoop_iff.1 hx.placed, hk⟩
  | nextIteration pos => exact .inl ⟨fun _ => Stmt.placed_nextIteration_iff.1 hx.placed, hk⟩
  | logicalRight o left => exact .inl ⟨fun hseeks => (nomatch hx hseeks), hk⟩
  | sequence o rest => exact .inl ⟨hx, hk⟩
  | fails hblames => exact .inl ⟨trivial, hk⟩
  | block body =>
    refine .inl ⟨fun hseeks => (nomatch hseeks), .cons ?_ (.cons (by trivial) hk)⟩
    exact fun u hu => (hx.block u hu).leaveBlock
  | @call o p f args pos hsummons harity hroom =>
    refine .inr ⟨[_], f, _, _, rfl, fun hf => ⟨fun hseeks => (nomatch hseeks), ?_⟩⟩
    exact .cons hf.fits (.cons (by trivial) hk)
  | @badCall o p f args pos d hsummons harity hroom hbind =>
    exact .inr ⟨[], f, _, _, rfl, fun _ => ⟨trivial, .cons (by trivial) hk⟩⟩
  | leaveBlock o frame caller => exact .inl ⟨hx, hk⟩
  | leaveCall o f frame caller => exact .inl ⟨fun hseeks => (nomatch hseeks), hk⟩
  | unwind d p => exact .inl ⟨trivial, hk⟩

/-- **One step keeps statements where they may stand**, and every jump on its way to a loop. -/
theorem Fits.step {c : Configuration} (h : c.Fits) (htidy : c.session.arena.Tidy) :
    c.step.Fits := by
  obtain ⟨⟨hcontrol, hstack⟩, hfunctions⟩ := h
  have hstep : c.step.All fun fn => fn.decl.Placed := by
    refine hfunctions.step htidy ?_
    rintro decl hdecl fn rfl
    rw [hdecl] at hcontrol
    exact Stmt.placed_function_iff.1 hcontrol.placed
  refine ⟨?_, hstep⟩
  rcases step_cases c with ⟨-, hsame⟩ | ⟨taken, k, y, put, t, htaken, hcourse, hnext⟩
  · rw [hsame]
    exact ⟨hcontrol, hstack⟩
  · rw [htaken] at hcontrol hstack
    rw [hnext] at hstep ⊢
    rcases hcourse.fits_or_calls hcontrol hstack with
      ⟨hy, hput⟩ | ⟨above, f, frame, caller, rfl, hcall⟩
    · exact ⟨hy, hput⟩
    · have hf : f ∈ Stack.functions (above ++ [.leaveCall f frame caller] ++ k) :=
        List.mem_flatMap.2 ⟨.leaveCall f frame caller, by simp, List.mem_cons_self⟩
      obtain ⟨hy, hput⟩ := hcall (hstep.held f (.inr hf))
      exact ⟨hy, hput⟩

/-! ## Functions that nobody has checked -/

/-- The control and the stack fit, or the stack does below a call. Jumps do not leave a call, so it
does not matter what its body consists of. -/
def Contained (c : Configuration) : Prop :=
  c.Ready ∨ ∃ above f frame caller k,
    c.stack = above ++ .leaveCall f frame caller :: k ∧ Stack.Fits k

theorem Ready.step {c : Configuration} (h : c.Ready) : c.step.Contained := by
  obtain ⟨hcontrol, hstack⟩ := h
  rcases step_cases c with ⟨-, hsame⟩ | ⟨taken, k, y, put, t, htaken, hcourse, hnext⟩
  · rw [hsame]
    exact .inl ⟨hcontrol, hstack⟩
  · rw [htaken] at hcontrol hstack
    rw [hnext]
    rcases hcourse.fits_or_calls hcontrol hstack with ⟨hy, hput⟩ | ⟨above, f, frame, caller, rfl, -⟩
    · exact .inl ⟨hy, hput⟩
    · exact .inr ⟨above, f, frame, caller, k, List.append_assoc .., hstack.of_append⟩

/-- **One step keeps jumps contained**, whatever functions are called. -/
theorem Contained.step {c : Configuration} (h : c.Contained) : c.step.Contained := by
  rcases h with hready | ⟨above, f, frame, caller, k, hstack, hk⟩
  · exact hready.step
  by_cases hover : c.IsOver (.leaveCall f frame caller :: k)
  · -- the call is left
    obtain ⟨control, stack, t⟩ := c
    obtain ⟨rfl, ⟨o, rfl⟩ | ⟨d, rfl⟩⟩ := hover
    · exact .inl (ready_done hk rfl)
    · exact .inl ⟨trivial, hk⟩
  · obtain ⟨taken, rest, y, put, t, -, -, hstep, -⟩ := exists_course hstack hover
    rw [hstep]
    exact .inr ⟨put ++ rest, f, frame, caller, k, (List.append_assoc ..).symm, hk⟩

/-- A run that ends does not end with a jump that seeks a loop. -/
theorem Contained.seeksLoop_of_run {c : Configuration} {n : Nat} {t : Session} (h : c.Contained)
    (hrun : c.run n = some (.ok o, t)) : o.asSignal.seeksLoop = false := by
  have hafter : (c.after n).Contained := after_induction (fun _ hd => hd.step) h n
  rw [run_eq_after] at hrun
  rcases ended?_eq_some hrun with ⟨o', ho, hc⟩ | ⟨d, ho, -⟩
  · obtain rfl := Except.ok.inj ho
    rw [hc] at hafter
    rcases hafter with hready | ⟨above, f, frame, caller, k, hstack, -⟩
    · exact Bool.eq_false_iff.2 fun hseeks => Bool.false_ne_true (hready.control hseeks)
    · simp at hstack
  · cases ho

end Configuration

/-! ## From a jump to its loop -/

/-- A part of the stack that a jump on its way to a loop passes. -/
def Continuation.passes : Continuation → Bool
  | .sequence _ => true
  | .leaveBlock _ _ => true
  | _ => false

/-- The innermost loop stands behind parts that jumps pass. -/
theorem Stack.enclosing_eq_some_iff {body : Stmt} :
    Stack.enclosing k = some body ↔ ∃ above condition increment below,
      k = above ++ .loopBody condition body increment :: below ∧
        ∀ p ∈ above, p.passes = true := by
  constructor
  · intro h
    induction k with
    | nil => cases h
    | cons p k ih =>
      cases p with
      | sequence rest =>
        obtain ⟨above, condition, increment, below, rfl, habove⟩ := ih h
        exact ⟨.sequence rest :: above, condition, increment, below, rfl,
          List.forall_mem_cons.2 ⟨rfl, habove⟩⟩
      | leaveBlock frame caller =>
        obtain ⟨above, condition, increment, below, rfl, habove⟩ := ih h
        exact ⟨.leaveBlock frame caller :: above, condition, increment, below, rfl,
          List.forall_mem_cons.2 ⟨rfl, habove⟩⟩
      | loopBody condition body' increment =>
        obtain rfl := Option.some.inj h
        exact ⟨[], condition, increment, k, rfl, fun q hq => nomatch hq⟩
      | _ => cases h
  · rintro ⟨above, condition, increment, below, rfl, habove⟩
    induction above with
    | nil => rfl
    | cons p above ih =>
      obtain ⟨hp, hrest⟩ := List.forall_mem_cons.1 habove
      cases p with
      | sequence rest => exact ih hrest
      | leaveBlock frame caller => exact ih hrest
      | _ => cases hp

namespace Configuration

variable {j : Signal} {t : Session}

theorem step_passes {p : Continuation} (hp : p.passes = true) (hj : j.seeksLoop = true) :
    ∃ t', step ⟨.done (.signal j), p :: k, t⟩ = ⟨.done (.signal j), k, t'⟩ := by
  cases p with
  | sequence rest => cases j <;> first | exact ⟨t, rfl⟩ | cases hj
  | leaveBlock frame caller => exact ⟨_, rfl⟩
  | _ => cases hp

/-- A jump passes one part of the stack at a step, up to the loop. -/
theorem after_jump {above : Stack} (habove : ∀ p ∈ above, p.passes = true)
    (hj : j.seeksLoop = true) {i : Nat} (hi : i ≤ above.length) :
    ∃ t', after i ⟨.done (.signal j), above ++ k, t⟩ =
      ⟨.done (.signal j), above.drop i ++ k, t'⟩ := by
  induction i generalizing above t with
  | zero => exact ⟨t, rfl⟩
  | succ i ih =>
    cases above with
    | nil => exact absurd hi (Nat.not_succ_le_zero i)
    | cons p above =>
      obtain ⟨hp, hrest⟩ := List.forall_mem_cons.1 habove
      obtain ⟨t', hstep⟩ := step_passes (k := above ++ k) (t := t) hp hj
      rw [after_succ, List.cons_append, hstep]
      exact ih hrest (Nat.le_of_succ_le_succ hi)

end Configuration

end Script
