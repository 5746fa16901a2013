import Mathlib.Data.List.Basic
import Script.Syntax

/-!
# The function declarations of a program

A function declaration stands among the statements of a program, of a block or of a function body.

- `Stmt.own?`: the function that a statement itself declares.
- `Stmt.Declares`: a statement declares a name in the scope in which it is executed.
- `Stmt.parts`, `Stmt.Within`: the statements directly inside a statement, and those anywhere in a
  program.
- `Stmt.declarations`: the functions declared anywhere in a statement, in the order of the text.
- `Within.declarations_sublist`: what a part of a program declares the program declares, in the same
  order.
-/

namespace Script

namespace Stmt

/-- The function that a statement declares by itself. -/
def own? : Stmt → Option FunDecl
  | .function decl => some decl
  | _ => none

/-- A statement declares a variable or a function in the scope in which it is executed. -/
inductive Declares : Stmt → Prop
  | declare {name : String} {initial : Option Expr} {pos : Position} :
    Declares (.declare name initial pos)
  | function {decl : FunDecl} : Declares (.function decl)
  | whenTrue {condition : Expr} {t : Stmt} {whenFalse : Option Stmt} {pos : Position} :
    Declares t → Declares (.branch condition t whenFalse pos)
  | whenFalse {condition : Expr} {whenTrue t : Stmt} {pos : Position} :
    Declares t → Declares (.branch condition whenTrue (some t) pos)
  | loop {condition : Expr} {body : Stmt} {increment : Option Expr} {pos : Position} :
    Declares body → Declares (.loop condition body increment pos)

/-- The statements directly inside a statement. -/
def parts : Stmt → List Stmt
  | .block body => body
  | .branch _ whenTrue whenFalse _ => whenTrue :: whenFalse.toList
  | .loop _ body _ _ => [body]
  | .function decl => decl.body
  | _ => []

/-- A statement stands somewhere in a program. -/
inductive Within (program : Program) : Stmt → Prop
  | top {s : Stmt} : s ∈ program → Within program s
  | part {s t : Stmt} : Within program t → s ∈ t.parts → Within program s

end Stmt

mutual

/-- The functions that are declared in a statement, those in function bodies included. -/
def Stmt.declarations : Stmt → List FunDecl
  | .expression _ => []
  | .print _ _ => []
  | .declare _ _ _ => []
  | .block body => Stmt.declarationsEach body
  | .branch _ whenTrue whenFalse _ => whenTrue.declarations ++ Stmt.declarationsElse whenFalse
  | .loop _ body _ _ => body.declarations
  | .exitLoop _ => []
  | .nextIteration _ => []
  | .function decl => decl.declarations
  | .giveBack _ _ => []

/-- The functions that are declared in statements. -/
def Stmt.declarationsEach : List Stmt → List FunDecl
  | [] => []
  | st :: sts => st.declarations ++ Stmt.declarationsEach sts

/-- The functions that are declared in a statement, if there is one. -/
def Stmt.declarationsElse : Option Stmt → List FunDecl
  | none => []
  | some st => st.declarations

/-- A function and those that are declared in its body. -/
def FunDecl.declarations : FunDecl → List FunDecl
  | ⟨name, params, body, pos⟩ => ⟨name, params, body, pos⟩ :: Stmt.declarationsEach body

end

variable {s t : Stmt} {decl : FunDecl} {program : Program}

theorem FunDecl.declarations_eq (decl : FunDecl) :
    decl.declarations = decl :: Stmt.declarationsEach decl.body := by
  cases decl
  rw [FunDecl.declarations]

namespace Stmt

theorem own?_eq_some_iff : s.own? = some decl ↔ s = .function decl := by
  cases s <;> simp [own?]

theorem declarationsEach_append (sts sts' : List Stmt) :
    declarationsEach (sts ++ sts') = declarationsEach sts ++ declarationsEach sts' := by
  induction sts with
  | nil => rfl
  | cons st sts ih =>
    rw [List.cons_append, declarationsEach, declarationsEach, ih, List.append_assoc]

/-- What one of several statements declares. -/
theorem declarations_sublist_each {sts : List Stmt} (h : s ∈ sts) :
    s.declarations.Sublist (declarationsEach sts) := by
  induction h with
  | head sts => exact List.sublist_append_left _ _
  | tail st _ ih => exact ih.trans (List.sublist_append_right _ _)

/-- What a part declares. -/
theorem declarations_sublist_of_mem_parts (h : s ∈ t.parts) :
    s.declarations.Sublist t.declarations := by
  cases t with
  | block body => exact declarations_sublist_each h
  | branch condition whenTrue whenFalse pos =>
    rcases List.mem_cons.1 h with rfl | h
    · exact List.sublist_append_left _ _
    · obtain rfl := Option.mem_toList.1 h
      exact List.sublist_append_right _ _
  | loop condition body increment pos =>
    obtain rfl := List.mem_singleton.1 h
    exact List.Sublist.refl _
  | function decl =>
    show s.declarations.Sublist decl.declarations
    rw [FunDecl.declarations_eq]
    exact (declarations_sublist_each h).cons decl
  | _ => cases h

/-- **What stands in a program declares functions of the program.** -/
theorem Within.declarations_sublist (h : s.Within program) :
    s.declarations.Sublist (declarationsEach program) := by
  induction h with
  | top hs => exact declarations_sublist_each hs
  | part _ hs ih => exact (declarations_sublist_of_mem_parts hs).trans ih

/-- A function declared in a program is one of those listed. -/
theorem Within.mem_declarations (h : (function decl).Within program) :
    decl ∈ declarationsEach program := by
  refine h.declarations_sublist.subset ?_
  show decl ∈ decl.declarations
  rw [FunDecl.declarations_eq]
  exact List.mem_cons_self

/-- The functions that statements declare by themselves. -/
theorem own_sublist (sts : List Stmt) : (sts.filterMap own?).Sublist (declarationsEach sts) := by
  induction sts with
  | nil => exact List.Sublist.refl _
  | cons st sts ih =>
    rw [declarationsEach]
    cases hown : st.own? with
    | none =>
      rw [List.filterMap_cons_none hown]
      exact ih.trans (List.sublist_append_right _ _)
    | some decl =>
      obtain rfl := own?_eq_some_iff.1 hown
      rw [List.filterMap_cons_some hown]
      show (decl :: _).Sublist (decl.declarations ++ _)
      rw [FunDecl.declarations_eq]
      exact (ih.trans (List.sublist_append_right _ _)).cons_cons decl

/-- Where the functions of a program stand at different positions, so do those that one list of
statements in it declares. -/
theorem Within.nodup_own (h : s.Within program)
    (hprogram : ((declarationsEach program).map (·.pos)).Nodup) {body : List Stmt}
    (hbody : s = .block body ∨ ∃ decl, s = .function decl ∧ body = decl.body) :
    ((body.filterMap own?).map (·.pos)).Nodup := by
  have hinside : (declarationsEach body).Sublist s.declarations := by
    rcases hbody with rfl | ⟨decl, rfl, rfl⟩
    · exact List.Sublist.refl _
    · show (declarationsEach decl.body).Sublist decl.declarations
      rw [FunDecl.declarations_eq]
      exact List.sublist_cons_self _ _
  exact hprogram.sublist (((own_sublist body).trans (hinside.trans h.declarations_sublist)).map _)

end Stmt

end Script
