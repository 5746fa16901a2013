import Script.Proofs.Grammar.Declarations
import Script.Proofs.Machine.Balance
import Script.Proofs.Machine.Jumps

/-!
# Declarations that are due

What a machine executes are parts of its program. The lists of statements that it has not finished
say which functions are still to be declared, and each will be declared in the frame in which its
list is executed. A declaration that is due is executed once: a list is entered in a new frame, and
from then on it only becomes shorter.

- `Configuration.Stays`: control, stack and functions consist of parts of a program; `Stays.step`.
- `Configuration.due`: the declarations that are due, with the frames they are due in.
- `Configuration.Dues`: what a step can do to them; `dues_step`.
-/

namespace Script

variable {program : Program} {s : Stmt} {k : Stack} {x : Handle}

/-! ## Parts of the program -/

/-- The statements that a part of the stack holds stand in the program. -/
def Continuation.Stays (program : Program) : Continuation → Prop
  | .branch whenTrue whenFalse =>
    ∃ condition pos, (Stmt.branch condition whenTrue whenFalse pos).Within program
  | .loopTest condition body increment =>
    ∃ pos, (Stmt.loop condition body increment pos).Within program
  | .loopBody condition body increment =>
    ∃ pos, (Stmt.loop condition body increment pos).Within program
  | .loopNext condition body increment =>
    ∃ pos, (Stmt.loop condition body increment pos).Within program
  | .sequence rest => ∀ s ∈ rest, s.Within program
  | _ => True

/-- A statement that is to be executed stands in the program. -/
def Control.Stays (program : Program) : Control → Prop
  | .exec s => s.Within program
  | .eval _ | .done _ | .failed _ => True

namespace Configuration

/-- The control and the stack consist of parts of the program. -/
structure Stands (program : Program) (c : Configuration) : Prop where
  control : c.control.Stays program
  stack : ∀ p ∈ c.stack, p.Stays program

/-- So do all functions. -/
structure Stays (program : Program) (c : Configuration) : Prop where
  stands : c.Stands program
  functions : c.All fun fn => (Stmt.function fn.decl).Within program

variable {c d : Configuration} {x y : Control} {taken put : Stack} {o : Outcome} {p : Continuation}
  {t : Session}

/-- What waits for an expression stands in the program if what has it evaluated does. -/
theorem Awaits.stays {e : Expr} (h : Awaits x taken e p) (hx : x.Stays program)
    (htaken : ∀ q ∈ taken, q.Stays program) : p.Stays program := by
  cases h with
  | branch _ whenTrue whenFalse pos => exact ⟨e, pos, hx⟩
  | loop _ body increment pos => exact ⟨pos, hx⟩
  | increment | bodyEnded | incremented =>
    obtain ⟨pos, hloop⟩ := List.forall_mem_singleton.1 htaken
    exact ⟨pos, hloop⟩
  | _ => trivial

theorem Runs.stays (h : Runs o p s put) (hp : p.Stays program) :
    s.Within program ∧ ∀ q ∈ put, q.Stays program := by
  cases h with
  | whenTrue whenTrue whenFalse =>
    obtain ⟨condition, pos, hbranch⟩ := hp
    exact ⟨.part hbranch List.mem_cons_self, List.forall_mem_nil _⟩
  | whenFalse whenTrue whenFalse =>
    obtain ⟨condition, pos, hbranch⟩ := hp
    exact ⟨.part hbranch (List.mem_cons_of_mem _ List.mem_cons_self), List.forall_mem_nil _⟩
  | body condition body increment =>
    obtain ⟨pos, hloop⟩ := hp
    exact ⟨.part hloop List.mem_cons_self, List.forall_mem_singleton.2 ⟨pos, hloop⟩⟩
  | next st rest =>
    obtain ⟨hfirst, hrest⟩ := List.forall_mem_cons.1 hp
    exact ⟨hfirst, List.forall_mem_singleton.2 hrest⟩

theorem Course.stays (h : Course t x taken y put) (hx : x.Stays program)
    (htaken : ∀ q ∈ taken, q.Stays program)
    (hheld : ∀ fn : Closure, fn ∈ x.functions ∨ fn ∈ Stack.functions taken →
      (Stmt.function fn.decl).Within program) :
    y.Stays program ∧ ∀ q ∈ put, q.Stays program := by
  cases h with
  | awaits hawaits =>
    exact ⟨trivial, List.forall_mem_singleton.2 (hawaits.stays hx htaken)⟩
  | runs hruns => exact hruns.stays (htaken _ List.mem_cons_self)
  | block body =>
    have hbody : ∀ s ∈ body, s.Within program := fun s hs => .part hx hs
    exact ⟨trivial, List.forall_mem_cons.2 ⟨hbody, List.forall_mem_singleton.2 trivial⟩⟩
  | @call o p f args pos hsummons harity hroom =>
    have hbody : ∀ s ∈ f.decl.body, s.Within program := fun s hs =>
      .part (hheld f hsummons.held) hs
    exact ⟨trivial, List.forall_mem_cons.2 ⟨hbody, List.forall_mem_singleton.2 trivial⟩⟩
  | badCall => exact ⟨trivial, List.forall_mem_singleton.2 trivial⟩
  | _ => exact ⟨trivial, List.forall_mem_nil _⟩

/-- **What is executed are parts of the program.** -/
theorem Stays.step (h : c.Stays program) (htidy : c.session.arena.Tidy) :
    c.step.Stays program := by
  obtain ⟨⟨hcontrol, hstack⟩, hfunctions⟩ := h
  constructor
  · obtain ⟨hy, hput⟩ := forall_step hcontrol hstack fun taken y put hcourse htaken hholds =>
      hcourse.stays hcontrol htaken fun fn hfn => hfunctions.held fn (hholds fn hfn)
    exact ⟨hy, hput⟩
  · refine hfunctions.step htidy ?_
    rintro decl hdecl fn rfl
    rw [hdecl] at hcontrol
    exact hcontrol

end Configuration

/-! ## Declarations that are due -/

/-- The functions that a list of statements still has to declare. -/
def Continuation.declared : Continuation → List FunDecl
  | .sequence rest => rest.filterMap Stmt.own?
  | _ => []

/-- The function that is declared at the moment. -/
def Control.declared : Control → List FunDecl
  | .exec s => s.own?.toList
  | .eval _ | .done _ | .failed _ => []

/-- The innermost scope below a part of the stack, if it is `x` above. -/
def Continuation.outer (p : Continuation) (x : Handle) : Handle :=
  match p.scope? with
  | some scope => scope.caller
  | none => x

/-- The declarations that a stack still has to execute when `x` is the innermost scope: the frames
they are due in, and where they stand. -/
def Stack.due : Handle → Stack → List (Handle × Position)
  | _, [] => []
  | x, p :: k => p.declared.map (fun decl => (x, decl.pos)) ++ Stack.due (p.outer x) k

namespace Configuration

/-- The declarations that are due. -/
def due (c : Configuration) : List (Handle × Position) :=
  c.control.declared.map (fun decl => (c.session.arena.current, decl.pos)) ++
    Stack.due c.session.arena.current c.stack

end Configuration

/-- Declarations are due in the innermost scope, and in those from which scopes were entered. -/
theorem Stack.owner_of_due {e : Handle × Position} (h : e ∈ Stack.due x k) :
    e.1 = x ∨ ∃ scope ∈ Stack.scopes k, e.1 = scope.caller := by
  induction k generalizing x with
  | nil => cases h
  | cons p k ih =>
    rcases List.mem_append.1 h with h | h
    · obtain ⟨decl, -, rfl⟩ := List.mem_map.1 h
      exact .inl rfl
    · rw [Stack.scopes_cons]
      rcases ih h with hx | ⟨scope, hscope, hx⟩
      · unfold Continuation.outer at hx
        cases hp : p.scope? with
        | none =>
          rw [hp] at hx
          exact .inl hx
        | some scope =>
          rw [hp] at hx
          exact .inr ⟨scope, List.mem_append_left _ List.mem_cons_self, hx⟩
      · exact .inr ⟨scope, List.mem_append_right _ hscope, hx⟩

/-- The frame that `x` leads to when all scopes on the stack are left. -/
def Stack.outer : Handle → Stack → Handle
  | x, [] => x
  | x, p :: k => Stack.outer (p.outer x) k

theorem Stack.due_append (x : Handle) (top k : Stack) :
    Stack.due x (top ++ k) = Stack.due x top ++ Stack.due (Stack.outer x top) k := by
  induction top generalizing x with
  | nil => rfl
  | cons p top ih => simp only [List.cons_append, due, outer, ih, List.append_assoc]

/-- The scopes that remain to be left lead to the frame where the interpreter will stand. -/
theorem Stack.outer_eq (st : Standing) (k : Stack) :
    Stack.outer st.current k = ((Stack.scopes k).foldl Standing.leave st).current := by
  induction k generalizing st with
  | nil => rfl
  | cons p k ih =>
    rw [scopes_cons, List.foldl_append, ← ih, outer, Continuation.outer]
    cases p.scope? with
    | none => rfl
    | some scope => rfl

namespace Configuration

variable {c d : Configuration} {x y : Control} {taken put : Stack} {o : Outcome} {p : Continuation}
  {s t : Session} {since : Nat} {kept : Closure → Prop}

/-- What a step from `c` to `d` does to the declarations that are due. -/
inductive Dues (program : Program) (c d : Configuration) : Prop
  /-- Some are no longer due. -/
  | fewer : d.due.Sublist c.due → (∀ decl, c.control ≠ .exec (.function decl)) → Dues program c d
  /-- The first is executed. -/
  | declares (decl : FunDecl) : c.control = .exec (.function decl) →
    c.due = (c.session.arena.current, decl.pos) :: d.due → Dues program c d
  /-- A list of statements is entered, in a new frame. -/
  | enters (parent : Handle) (body : List Stmt) (s : Stmt) (rest : List (Handle × Position)) :
    s.Within program → (s = .block body ∨ ∃ decl, s = .function decl ∧ body = decl.body) →
    d.due = (body.filterMap Stmt.own?).map
      (fun decl => ((c.session.arena.push parent).2, decl.pos)) ++ rest →
    rest.Sublist c.due → (∀ decl, c.control ≠ .exec (.function decl)) → Dues program c d

/-- Nothing is declared while an expression is evaluated. -/
theorem Awaits.declares_nothing {e : Expr} (h : Awaits x taken e p) : p.declared = [] := by
  cases h <;> rfl

theorem due_singleton (hp : p.declared = []) (x : Handle) : Stack.due x [p] = [] := by
  rw [Stack.due, hp]
  rfl

/-- The statements in a scope are due in its frame. -/
theorem due_body (hp : p.declared = []) (x : Handle) (body : List Stmt) :
    Stack.due x [.sequence body, p] =
      (body.filterMap Stmt.own?).map fun decl => (x, decl.pos) := by
  show _ ++ Stack.due x [p] = _
  rw [due_singleton hp, List.append_nil]
  rfl

/-- A part of the program that is executed on its own declares nothing, and the statements of a list
declare what the list did. -/
theorem Runs.due (h : Runs o p st put) (harranged : ∀ s : Stmt, s.Within program → s.Arranged)
    (hp : p.Stays program) (x : Handle) :
    st.own?.toList.map (fun decl => (x, decl.pos)) ++ Stack.due x put = Stack.due x [p] := by
  cases h with
  | whenTrue whenTrue whenFalse =>
    obtain ⟨condition, pos, hbranch⟩ := hp
    rw [(harranged _ hbranch).1]
    rfl
  | whenFalse whenTrue whenFalse =>
    obtain ⟨condition, pos, hbranch⟩ := hp
    rw [(harranged _ hbranch).2 _ rfl]
    rfl
  | body condition body increment =>
    obtain ⟨pos, hloop⟩ := hp
    rw [show st.own? = none from harranged _ hloop]
    rfl
  | next st rest =>
    show _ ++ ((rest.filterMap Stmt.own?).map _ ++ []) =
      ((st :: rest).filterMap Stmt.own?).map _ ++ []
    cases hown : st.own? with
    | none => rw [List.filterMap_cons_none hown]; rfl
    | some decl => rw [List.filterMap_cons_some hown]; rfl

theorem due_eq (c : Configuration) (hstack : c.stack = taken ++ k) :
    c.due = c.control.declared.map (fun decl => (c.session.arena.current, decl.pos)) ++
      (Stack.due c.session.arena.current taken ++
        Stack.due (Stack.outer c.session.arena.current taken) k) := by
  rw [due, hstack, Stack.due_append]

/-- The parts of the stack that a step takes and those that it puts lead to the same frame. -/
theorem Change.outer (h : c.Change d) (hc : c.stack = taken ++ k) (hd : d.stack = put ++ k) :
    Stack.outer d.session.arena.current put = Stack.outer c.session.arena.current taken := by
  have hsame : d.restores (Stack.scopes put) = c.restores (Stack.scopes taken) :=
    h.restores (by rw [hc, scopes_append]) (by rw [hd, scopes_append])
  calc Stack.outer d.session.standing.current put
    _ = (d.restores (Stack.scopes put)).current := Stack.outer_eq d.session.standing put
    _ = (c.restores (Stack.scopes taken)).current := congrArg Standing.current hsame
    _ = Stack.outer c.session.standing.current taken :=
        (Stack.outer_eq c.session.standing taken).symm

/-- On its course, a step executes the declaration that is due, or enters a list of statements in
the frame that has become the innermost one, or lets some declarations be due no longer. -/
theorem Course.dues (h : Course s x taken y put)
    (harranged : ∀ s : Stmt, s.Within program → s.Arranged) (hx : x.Stays program)
    (htaken : ∀ q ∈ taken, q.Stays program)
    (hheld : ∀ fn : Closure, fn ∈ x.functions ∨ fn ∈ Stack.functions taken →
      (Stmt.function fn.decl).Within program)
    (houter : Stack.outer t.arena.current put = Stack.outer s.arena.current taken)
    (hframe : ∀ scope scopes, Stack.scopes put = scope :: scopes → t.arena.current = scope.frame) :
    Dues program ⟨x, taken ++ k, s⟩ ⟨y, put ++ k, t⟩ := by
  have hbefore := due_eq ⟨x, taken ++ k, s⟩ rfl
  have hbehind := due_eq ⟨y, put ++ k, t⟩ rfl
  simp only [houter] at hbehind
  have honward (hy : y.declared = []) (hput : Stack.due t.arena.current put = [])
      (hno : ∀ decl, x ≠ .exec (.function decl)) :
      Dues program ⟨x, taken ++ k, s⟩ ⟨y, put ++ k, t⟩ := by
    refine .fewer ?_ hno
    rw [hbefore, hbehind, hy, hput]
    exact (List.sublist_append_right _ _).trans (List.sublist_append_right _ _)
  cases h with
  | awaits hawaits =>
    refine honward rfl (due_singleton hawaits.declares_nothing _) fun decl hdecl => ?_
    subst hdecl
    cases hawaits
  | @runs o p st put hruns =>
    have hcurrent : t.arena.current = s.arena.current := by cases hruns <;> exact houter
    refine .fewer ?_ fun decl hdecl => nomatch hdecl
    have hdue := hruns.due harranged (htaken p List.mem_cons_self) s.arena.current
    rw [hbefore, hbehind, hcurrent, ← hdue, ← List.append_assoc]
    exact List.Sublist.refl _
  | ends hends ho =>
    refine honward rfl rfl fun decl hdecl => ?_
    subst hdecl
    cases hends with
    | statement hno => exact hno decl rfl
  | declares decl => exact .declares decl rfl (hbefore.trans (congrArg (List.cons _) hbehind.symm))
  | fails hblames =>
    cases hblames with
    | @function decl fault hdefine =>
      exact .declares decl rfl (hbefore.trans (congrArg (List.cons _) hbehind.symm))
    | _ => exact honward rfl rfl fun decl hdecl => nomatch hdecl
  | block body =>
    rw [hframe _ _ rfl, due_body rfl] at hbehind
    refine .enters s.arena.current body (.block body) (Stack.due s.arena.current k) hx
      (.inl rfl) hbehind ?_ fun decl hdecl => nomatch hdecl
    exact List.Sublist.refl _
  | @call o p f args pos hsummons harity hroom =>
    rw [hframe _ _ rfl, due_body rfl] at hbehind
    refine .enters f.captured f.decl.body (.function f.decl) (Stack.due (p.outer s.arena.current) k)
      (hheld f hsummons.held) (.inr ⟨f.decl, rfl, rfl⟩) hbehind ?_ fun decl hdecl => nomatch hdecl
    exact List.sublist_append_right _ _
  | _ => exact honward rfl rfl fun decl hdecl => nomatch hdecl

/-- **A declaration that is due is executed at most once.** -/
theorem dues_step (harranged : ∀ s : Stmt, s.Within program → s.Arranged) (h : c.Stays program)
    (hsound : c.Sound since kept) : Dues program c c.step := by
  rcases step_cases c with ⟨⟨-, hended⟩, hsame⟩ | ⟨taken, k, y, put, t, htaken, hcourse, hstep⟩
  · rw [hsame]
    refine .fewer (List.Sublist.refl _) fun decl hdecl => ?_
    rcases hended with ⟨o, ho⟩ | ⟨d, hd⟩
    · cases hdecl.symm.trans ho
    · cases hdecl.symm.trans hd
  · have hnested := hsound.step.scopes
    have houter := (effect_step c).change.outer htaken (congrArg Configuration.stack hstep)
    obtain ⟨⟨hcontrol, hstack⟩, hfunctions⟩ := h
    obtain ⟨control, stack, s⟩ := c
    obtain rfl : stack = taken ++ k := htaken
    rw [hstep] at hnested houter ⊢
    refine hcourse.dues harranged hcontrol (fun q hq => hstack q (List.mem_append_left _ hq))
      (fun fn hfn => hfunctions.held fn (holds_of_taken rfl hfn)) houter fun scope scopes hput => ?_
    rw [scopes_append, hput, List.cons_append] at hnested
    exact hnested.current_eq_frame

end Configuration

end Script
