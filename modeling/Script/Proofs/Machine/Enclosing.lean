import Script.Proofs.Grammar.Placement
import Script.Proofs.Machine.Balance
import Script.Proofs.Syntax.Declarations

/-!
# What does not get out of a statement

A statement that is executed above some stack can affect what is below in two ways that its end does
not show: it declares a name in the scope it was executed in, or it ends with a jump to the next
iteration. Whether it does can be told from its tree. Calls do neither, so nothing is asked of the
functions that are called.

- `Continuation.clears`: the parts of a stack at which a jump to the next iteration ends.
- `Stmt.Enclosed`: a statement declares nothing below a part of the stack, and jumps to no loop
  there.
- `Configuration.Enclosed`, `Enclosed.step`: the same for all that remains to be done above a stack,
  and at every step.
-/

namespace Script

/-! ## Statements above a stack -/

/-- A part of the stack at which a jump to the next iteration ends. -/
def Continuation.clears : Continuation → Bool
  | .loopBody _ _ _ => true
  | .leaveCall _ _ _ => true
  | _ => false

/-- A statement that is executed on top of the stack `k`, and below it neither declares a name nor
jumps to the next iteration of a loop. -/
structure Stmt.Enclosed (s : Stmt) (k : Stack) : Prop where
  scope : s.Declares → Stack.scopes k ≠ []
  loop : ∀ pos, (Stmt.nextIteration pos).Inside s → ∃ p ∈ k, p.clears = true

/-- What a part of the stack still has to do on top of `k` has no effect below. -/
def Continuation.Enclosed (p : Continuation) (k : Stack) : Prop :=
  match p with
  | .define _ _ => Stack.scopes k ≠ []
  | .sequence rest => ∀ s ∈ rest, s.Enclosed k
  | .branch whenTrue whenFalse => whenTrue.Enclosed k ∧ ∀ s ∈ whenFalse, s.Enclosed k
  | .loopTest _ body _ => body.Declares → Stack.scopes k ≠ []
  | .loopBody _ body _ => body.Declares → Stack.scopes k ≠ []
  | .loopNext _ body _ => body.Declares → Stack.scopes k ≠ []
  | _ => True

/-- Every part of the stack is enclosed by those below it. -/
inductive Stack.Enclosed : Stack → Prop
  | nil : Stack.Enclosed []
  | cons {p : Continuation} {k : Stack} : p.Enclosed k → Stack.Enclosed k → Stack.Enclosed (p :: k)

/-- What is done on top of the stack `k` has no effect below. -/
def Control.Enclosed (control : Control) (k : Stack) : Prop :=
  match control with
  | .exec s => s.Enclosed k
  | .done o => o.asSignal = .nextIteration → ∃ p ∈ k, p.clears = true
  | _ => True

/-- What is done above the stack `k` has no effect on it but by its end. -/
def Configuration.Enclosed (k : Stack) (c : Configuration) : Prop :=
  ∃ top, c.stack = top ++ k ∧ c.control.Enclosed top ∧ Stack.Enclosed top

variable {s : Stmt} {k : Stack} {p : Continuation}

namespace Stmt

/-- What encloses a statement still does so below more parts. -/
theorem Enclosed.cons (h : s.Enclosed k) (p : Continuation) : s.Enclosed (p :: k) := by
  refine ⟨fun hs => ?_, fun pos hpos => ?_⟩
  · rw [Stack.scopes_cons]
    exact fun hnone => h.scope hs (List.append_eq_nil_iff.1 hnone).2
  · obtain ⟨q, hq, hclears⟩ := h.loop pos hpos
    exact ⟨q, List.mem_cons_of_mem _ hq, hclears⟩

theorem Enclosed.branch {condition : Expr} {whenTrue : Stmt} {whenFalse : Option Stmt}
    {pos : Position} (h : (Stmt.branch condition whenTrue whenFalse pos).Enclosed k) :
    whenTrue.Enclosed k ∧ ∀ t ∈ whenFalse, t.Enclosed k := by
  refine ⟨⟨fun ht => h.scope (.whenTrue ht), fun q hq => h.loop q (.whenTrue hq)⟩, fun t ht => ?_⟩
  obtain rfl : whenFalse = some t := ht
  exact ⟨fun ht => h.scope (.whenFalse ht), fun q hq => h.loop q (.whenFalse hq)⟩

/-- A block is a scope for what its statements declare, and no loop. -/
theorem Enclosed.block {body : List Stmt} {frame caller : Handle}
    (h : (Stmt.block body).Enclosed k) :
    ∀ t ∈ body, t.Enclosed (.leaveBlock frame caller :: k) := by
  intro t ht
  refine ⟨fun _ => List.cons_ne_nil _ _, fun pos hpos => ?_⟩
  obtain ⟨q, hq, hclears⟩ := h.loop pos (.block ht hpos)
  exact ⟨q, List.mem_cons_of_mem _ hq, hclears⟩

/-- A loop clears the jumps in its body, but what this declares is declared around the loop. -/
theorem enclosed_loopBody {condition : Expr} {increment : Option Expr}
    (h : s.Declares → Stack.scopes k ≠ []) : s.Enclosed (.loopBody condition s increment :: k) :=
  ⟨h, fun _ _ => ⟨_, List.mem_cons_self, rfl⟩⟩

/-- No statement of a function body has an effect outside of the call. -/
theorem enclosed_leaveCall {f : Closure} {frame caller : Handle} :
    s.Enclosed (.leaveCall f frame caller :: k) :=
  ⟨fun _ => List.cons_ne_nil _ _, fun _ _ => ⟨_, List.mem_cons_self, rfl⟩⟩

end Stmt

/-! ## Steps -/

variable {rest : Stack}

theorem Stack.Enclosed.of_append {top : Stack} (h : Stack.Enclosed (top ++ k)) :
    Stack.Enclosed k := by
  induction top with
  | nil => exact h
  | cons p top ih =>
    cases h with
    | cons hp htop => exact ih htop

/-- A jump passes every part that does not clear it. -/
theorem Control.Enclosed.passes {o : Outcome} (h : (Control.done o).Enclosed (p :: k))
    (hclears : p.clears = false) : (Control.done o).Enclosed k := by
  intro hjump
  obtain ⟨q, hq, hq'⟩ := h hjump
  rcases List.mem_cons.1 hq with rfl | hq
  · exact absurd (hclears.symm.trans hq') Bool.false_ne_true
  · exact ⟨q, hq, hq'⟩

namespace Configuration

variable {c : Configuration} {t : Session} {x y : Control} {taken put : Stack} {o : Outcome}

/-- What waits for an expression is enclosed as what has it evaluated was. -/
theorem Awaits.enclosed {e : Expr} (h : Awaits x taken e p) (hx : x.Enclosed (taken ++ rest))
    (htaken : Stack.Enclosed (taken ++ rest)) : p.Enclosed rest := by
  cases h with
  | define name e pos => exact hx.scope .declare
  | branch condition whenTrue whenFalse pos => exact hx.branch
  | loop condition body increment pos => exact fun hbody => hx.scope (.loop hbody)
  | increment | bodyEnded | incremented =>
    cases htaken with
    | cons hp hrest => exact hp
  | _ => trivial

theorem Runs.enclosed (h : Runs o p s put) (hp : p.Enclosed rest) (hrest : Stack.Enclosed rest) :
    s.Enclosed (put ++ rest) ∧ Stack.Enclosed (put ++ rest) := by
  cases h with
  | whenTrue whenTrue whenFalse => exact ⟨hp.1, hrest⟩
  | whenFalse whenTrue whenFalse => exact ⟨hp.2 _ rfl, hrest⟩
  | body condition body increment =>
    have hbody : (Continuation.loopBody condition s increment).Enclosed rest := hp
    exact ⟨Stmt.enclosed_loopBody hp, .cons hbody hrest⟩
  | next st after =>
    obtain ⟨hfirst, hafter⟩ := List.forall_mem_cons.1 hp
    exact ⟨hfirst.cons _, .cons hafter hrest⟩

theorem Course.enclosed (h : Course t x taken y put) (hx : x.Enclosed (taken ++ rest))
    (htaken : Stack.Enclosed (taken ++ rest)) :
    y.Enclosed (put ++ rest) ∧ Stack.Enclosed (put ++ rest) := by
  have hrest : Stack.Enclosed rest := htaken.of_append
  cases h with
  | group inner pos => exact ⟨trivial, hrest⟩
  | awaits hawaits => exact ⟨trivial, .cons (hawaits.enclosed hx htaken) hrest⟩
  | runs hruns =>
    cases htaken with
    | cons hp hrest => exact hruns.enclosed hp hrest
  | ends hends ho =>
    refine ⟨fun hjump => ?_, hrest⟩
    rw [hjump] at ho
    cases ho
  | declares decl => exact ⟨Signal.noConfusion, hrest⟩
  | exitLoop pos => exact ⟨Signal.noConfusion, hrest⟩
  | nextIteration pos => exact ⟨fun _ => hx.loop pos .self, hrest⟩
  | logicalRight o left => exact ⟨hx.passes rfl, hrest⟩
  | sequence o rest => exact ⟨hx.passes rfl, hrest⟩
  | fails hblames => exact ⟨trivial, hrest⟩
  | block body => exact ⟨Signal.noConfusion, .cons hx.block (.cons (by trivial) hrest)⟩
  | call hsummons harity hroom =>
    exact ⟨Signal.noConfusion,
      .cons (fun s _ => Stmt.enclosed_leaveCall) (.cons (by trivial) hrest)⟩
  | badCall hsummons harity hroom hbind => exact ⟨trivial, .cons (by trivial) hrest⟩
  | leaveBlock o frame caller => exact ⟨hx.passes rfl, hrest⟩
  | leaveCall o f frame caller => exact ⟨Signal.noConfusion, hrest⟩
  | unwind d p => exact ⟨trivial, hrest⟩

/-- **One step keeps to the stack above `k`** in what it declares and where it jumps, as long as
something remains to be done there. -/
theorem Enclosed.step (h : c.Enclosed k) (hbusy : ¬ c.IsOver k) : c.step.Enclosed k := by
  obtain ⟨top, hstack, hcontrol, htop⟩ := h
  obtain ⟨taken, rest, y, put, t, rfl, hcourse, hstep, -⟩ := exists_course hstack hbusy
  rw [hstep]
  exact ⟨put ++ rest, (List.append_assoc ..).symm, hcourse.enclosed hcontrol htop⟩

/-- What is done above `k` does not end with a jump to the next iteration. -/
theorem Enclosed.not_nextIteration (h : c.Enclosed k) (hcontrol : c.control = .done o)
    (hstack : c.stack = k) : o.asSignal ≠ .nextIteration := by
  obtain ⟨top, htop, hjump, -⟩ := h
  obtain rfl : top = [] := List.append_left_eq_self.1 (htop.symm.trans hstack)
  rw [hcontrol] at hjump
  intro ho
  obtain ⟨p, hp, -⟩ := hjump ho
  cases hp

end Configuration

end Script
