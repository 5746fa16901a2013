import Script.Diagnostic
import Script.Syntax

/-!
# The positions in a tree

The nodes of a tree carry positions for the sake of diagnostics. Here they are listed, and a tree is
given others in their places.

- `Expr.positions`, `Stmt.positions`: the positions that the nodes of a tree carry.
- `Expr.moved`, `Stmt.moved`: a tree with each position `p` replaced by `μ p`.
- `positions_moved`, `moved_congr`, `moved_moved`: moving replaces exactly the positions listed.
- `mem_of_fixed`: what is fixed with the positions of a set by whatever moves them is one of them.
-/

namespace Script

/-! ## Lists of positions -/

/-- A set of positions holds each position that stays in place whenever its members do. -/
theorem Position.mem_of_fixed {s : Position → Prop} {p : Position}
    (h : ∀ μ : Position → Position, (∀ q, s q → μ q = q) → μ p = p) : s p := by
  classical
  -- one line further down for everything outside the set
  have hp := h (fun q => if s q then q else ⟨q.line + 1, q.column⟩) fun q hq => if_pos hq
  by_cases hs : s p
  · exact hs
  · rw [if_neg hs] at hp
    exact absurd (congrArg Position.line hp) (Nat.succ_ne_self _)

/-! ## Expressions -/

namespace Expr

mutual

/-- The positions that the nodes of an expression carry. -/
def positions : Expr → List Position
  | .literal _ pos => [pos]
  | .group inner pos => pos :: inner.positions
  | .ident _ pos => [pos]
  | .assign _ value pos => pos :: value.positions
  | .unary _ operand pos => pos :: operand.positions
  | .binary _ left right pos => pos :: (left.positions ++ right.positions)
  | .logical _ left right pos => pos :: (left.positions ++ right.positions)
  | .call callee args pos => pos :: (callee.positions ++ positionsEach args)

/-- The positions that the nodes of expressions carry. -/
def positionsEach : List Expr → List Position
  | [] => []
  | e :: es => e.positions ++ positionsEach es

end

mutual

/-- The expression with other positions. -/
def moved (μ : Position → Position) : Expr → Expr
  | .literal value pos => .literal value (μ pos)
  | .group inner pos => .group (inner.moved μ) (μ pos)
  | .ident name pos => .ident name (μ pos)
  | .assign name value pos => .assign name (value.moved μ) (μ pos)
  | .unary op operand pos => .unary op (operand.moved μ) (μ pos)
  | .binary op left right pos => .binary op (left.moved μ) (right.moved μ) (μ pos)
  | .logical op left right pos => .logical op (left.moved μ) (right.moved μ) (μ pos)
  | .call callee args pos => .call (callee.moved μ) (movedEach μ args) (μ pos)

/-- Expressions with other positions. -/
def movedEach (μ : Position → Position) : List Expr → List Expr
  | [] => []
  | e :: es => e.moved μ :: movedEach μ es

end

variable {μ ν : Position → Position}

theorem movedEach_eq_map (es : List Expr) : movedEach μ es = es.map (moved μ) := by
  induction es with
  | nil => rfl
  | cons e es ih => rw [movedEach, ih, List.map_cons]

mutual

theorem positions_moved (e : Expr) : (e.moved μ).positions = e.positions.map μ := by
  cases e with
  | literal value pos => rfl
  | group inner pos => simp only [moved, positions, positions_moved inner, List.map_cons]
  | ident name pos => rfl
  | assign name value pos => simp only [moved, positions, positions_moved value, List.map_cons]
  | unary op operand pos => simp only [moved, positions, positions_moved operand, List.map_cons]
  | binary op left right pos =>
    simp only [moved, positions, positions_moved left, positions_moved right, List.map_cons,
      List.map_append]
  | logical op left right pos =>
    simp only [moved, positions, positions_moved left, positions_moved right, List.map_cons,
      List.map_append]
  | call callee args pos =>
    simp only [moved, positions, positions_moved callee, positionsEach_moved args, List.map_cons,
      List.map_append]

theorem positionsEach_moved (es : List Expr) :
    positionsEach (movedEach μ es) = (positionsEach es).map μ := by
  cases es with
  | nil => rfl
  | cons e es =>
    simp only [movedEach, positionsEach, positions_moved e, positionsEach_moved es,
      List.map_append]

end

mutual

/-- Only the positions in an expression matter to how it is moved. -/
theorem moved_congr {e : Expr} (h : ∀ p ∈ e.positions, μ p = ν p) : e.moved μ = e.moved ν := by
  cases e with
  | literal value pos => simp only [moved, h pos List.mem_cons_self]
  | group inner pos =>
    obtain ⟨hpos, hinner⟩ := List.forall_mem_cons.1 h
    simp only [moved, hpos, moved_congr hinner]
  | ident name pos => simp only [moved, h pos List.mem_cons_self]
  | assign name value pos =>
    obtain ⟨hpos, hvalue⟩ := List.forall_mem_cons.1 h
    simp only [moved, hpos, moved_congr hvalue]
  | unary op operand pos =>
    obtain ⟨hpos, hoperand⟩ := List.forall_mem_cons.1 h
    simp only [moved, hpos, moved_congr hoperand]
  | binary op left right pos =>
    obtain ⟨hpos, hrest⟩ := List.forall_mem_cons.1 h
    obtain ⟨hleft, hright⟩ := List.forall_mem_append.1 hrest
    simp only [moved, hpos, moved_congr hleft, moved_congr hright]
  | logical op left right pos =>
    obtain ⟨hpos, hrest⟩ := List.forall_mem_cons.1 h
    obtain ⟨hleft, hright⟩ := List.forall_mem_append.1 hrest
    simp only [moved, hpos, moved_congr hleft, moved_congr hright]
  | call callee args pos =>
    obtain ⟨hpos, hrest⟩ := List.forall_mem_cons.1 h
    obtain ⟨hcallee, hargs⟩ := List.forall_mem_append.1 hrest
    simp only [moved, hpos, moved_congr hcallee, movedEach_congr hargs]

theorem movedEach_congr {es : List Expr} (h : ∀ p ∈ positionsEach es, μ p = ν p) :
    movedEach μ es = movedEach ν es := by
  cases es with
  | nil => rfl
  | cons e es =>
    obtain ⟨he, hes⟩ := List.forall_mem_append.1 h
    simp only [movedEach, moved_congr he, movedEach_congr hes]

end

mutual

theorem moved_moved (e : Expr) : (e.moved μ).moved ν = e.moved (ν ∘ μ) := by
  cases e with
  | literal value pos => rfl
  | group inner pos => simp only [moved, moved_moved inner, Function.comp_apply]
  | ident name pos => rfl
  | assign name value pos => simp only [moved, moved_moved value, Function.comp_apply]
  | unary op operand pos => simp only [moved, moved_moved operand, Function.comp_apply]
  | binary op left right pos =>
    simp only [moved, moved_moved left, moved_moved right, Function.comp_apply]
  | logical op left right pos =>
    simp only [moved, moved_moved left, moved_moved right, Function.comp_apply]
  | call callee args pos =>
    simp only [moved, moved_moved callee, movedEach_moved args, Function.comp_apply]

theorem movedEach_moved (es : List Expr) :
    movedEach ν (movedEach μ es) = movedEach (ν ∘ μ) es := by
  cases es with
  | nil => rfl
  | cons e es => simp only [movedEach, moved_moved e, movedEach_moved es]

end

mutual

@[simp] theorem moved_id (e : Expr) : e.moved id = e := by
  cases e with
  | literal value pos => rfl
  | group inner pos => simp only [moved, moved_id inner, id_eq]
  | ident name pos => rfl
  | assign name value pos => simp only [moved, moved_id value, id_eq]
  | unary op operand pos => simp only [moved, moved_id operand, id_eq]
  | binary op left right pos => simp only [moved, moved_id left, moved_id right, id_eq]
  | logical op left right pos => simp only [moved, moved_id left, moved_id right, id_eq]
  | call callee args pos => simp only [moved, moved_id callee, movedEach_id args, id_eq]

theorem movedEach_id (es : List Expr) : movedEach id es = es := by
  cases es with
  | nil => rfl
  | cons e es => simp only [movedEach, moved_id e, movedEach_id es]

end

end Expr

/-! ## Statements -/

/-- The parameter at another position. -/
def Param.moved (μ : Position → Position) (p : Param) : Param := ⟨p.name, μ p.pos⟩

/-- The diagnostic at another position. -/
def Diagnostic.moved (μ : Position → Position) (d : Diagnostic) : Diagnostic := ⟨d.fault, μ d.pos⟩

mutual

/-- The positions that the nodes of a statement carry. -/
def Stmt.positions : Stmt → List Position
  | .expression e => e.positions
  | .print e pos => pos :: e.positions
  | .declare _ initial pos => pos :: initial.toList.flatMap Expr.positions
  | .block body => Stmt.positionsEach body
  | .branch condition whenTrue whenFalse pos =>
    pos :: (condition.positions ++ (whenTrue.positions ++ Stmt.positionsElse whenFalse))
  | .loop condition body increment pos =>
    pos :: (condition.positions ++
      (body.positions ++ increment.toList.flatMap Expr.positions))
  | .exitLoop pos => [pos]
  | .nextIteration pos => [pos]
  | .function decl => decl.positions
  | .giveBack value pos => pos :: value.toList.flatMap Expr.positions

/-- The positions that the nodes of statements carry. -/
def Stmt.positionsEach : List Stmt → List Position
  | [] => []
  | st :: sts => st.positions ++ Stmt.positionsEach sts

/-- The positions that the nodes of a statement carry, if there is one. -/
def Stmt.positionsElse : Option Stmt → List Position
  | none => []
  | some st => st.positions

/-- The positions that the nodes of a function declaration carry. -/
def FunDecl.positions : FunDecl → List Position
  | ⟨_, params, body, pos⟩ => pos :: (params.map (·.pos) ++ Stmt.positionsEach body)

end

mutual

/-- The statement with other positions. -/
def Stmt.moved (μ : Position → Position) : Stmt → Stmt
  | .expression e => .expression (e.moved μ)
  | .print e pos => .print (e.moved μ) (μ pos)
  | .declare name initial pos => .declare name (initial.map (Expr.moved μ)) (μ pos)
  | .block body => .block (Stmt.movedEach μ body)
  | .branch condition whenTrue whenFalse pos =>
    .branch (condition.moved μ) (whenTrue.moved μ) (Stmt.movedElse μ whenFalse) (μ pos)
  | .loop condition body increment pos =>
    .loop (condition.moved μ) (body.moved μ) (increment.map (Expr.moved μ)) (μ pos)
  | .exitLoop pos => .exitLoop (μ pos)
  | .nextIteration pos => .nextIteration (μ pos)
  | .function decl => .function (decl.moved μ)
  | .giveBack value pos => .giveBack (value.map (Expr.moved μ)) (μ pos)

/-- Statements with other positions. -/
def Stmt.movedEach (μ : Position → Position) : List Stmt → List Stmt
  | [] => []
  | st :: sts => st.moved μ :: Stmt.movedEach μ sts

/-- A statement with other positions, if there is one. -/
def Stmt.movedElse (μ : Position → Position) : Option Stmt → Option Stmt
  | none => none
  | some st => some (st.moved μ)

/-- The function declaration with other positions. -/
def FunDecl.moved (μ : Position → Position) : FunDecl → FunDecl
  | ⟨name, params, body, pos⟩ =>
    ⟨name, params.map (Param.moved μ), Stmt.movedEach μ body, μ pos⟩

end

theorem FunDecl.moved_eq (μ : Position → Position) (decl : FunDecl) :
    decl.moved μ = ⟨decl.name, decl.params.map (Param.moved μ), Stmt.movedEach μ decl.body,
      μ decl.pos⟩ := by
  cases decl
  rfl

/-- The positions that the nodes of a program carry. -/
abbrev Program.positions (program : Program) : List Position := Stmt.positionsEach program

/-- The program with other positions. -/
abbrev Program.moved (μ : Position → Position) (program : Program) : Program :=
  Stmt.movedEach μ program

namespace Stmt

variable {μ ν : Position → Position}

theorem movedEach_eq_map (sts : List Stmt) : movedEach μ sts = sts.map (moved μ) := by
  induction sts with
  | nil => rfl
  | cons st sts ih => rw [movedEach, ih, List.map_cons]

theorem movedElse_eq_map (st : Option Stmt) : movedElse μ st = st.map (moved μ) := by
  cases st <;> rfl

theorem positionsEach_append (sts sts' : List Stmt) :
    positionsEach (sts ++ sts') = positionsEach sts ++ positionsEach sts' := by
  induction sts with
  | nil => rfl
  | cons st sts ih => rw [List.cons_append, positionsEach, positionsEach, ih, List.append_assoc]

theorem movedEach_append (sts sts' : List Stmt) :
    movedEach μ (sts ++ sts') = movedEach μ sts ++ movedEach μ sts' := by
  simp only [movedEach_eq_map, List.map_append]

/-- The positions in an expression that need not be there. -/
theorem positions_map_moved (e : Option Expr) :
    (e.map (Expr.moved μ)).toList.flatMap Expr.positions =
      (e.toList.flatMap Expr.positions).map μ := by
  cases e with
  | none => rfl
  | some e =>
    simp only [Option.map_some, Option.toList_some, List.flatMap_singleton, Expr.positions_moved]

theorem map_moved_congr {e : Option Expr}
    (h : ∀ p ∈ e.toList.flatMap Expr.positions, μ p = ν p) :
    e.map (Expr.moved μ) = e.map (Expr.moved ν) := by
  cases e with
  | none => rfl
  | some e =>
    rw [Option.toList_some, List.flatMap_singleton] at h
    exact congrArg some (Expr.moved_congr h)

theorem map_moved_moved (e : Option Expr) :
    (e.map (Expr.moved μ)).map (Expr.moved ν) = e.map (Expr.moved (ν ∘ μ)) := by
  cases e with
  | none => rfl
  | some e => exact congrArg some (Expr.moved_moved e)

theorem map_moved_id (e : Option Expr) : e.map (Expr.moved id) = e := by
  cases e with
  | none => rfl
  | some e => exact congrArg some (Expr.moved_id e)

end Stmt

variable {μ ν : Position → Position}

mutual

theorem Stmt.positions_moved (st : Stmt) : (st.moved μ).positions = st.positions.map μ := by
  cases st with
  | expression e => exact Expr.positions_moved e
  | print e pos => simp only [Stmt.moved, Stmt.positions, Expr.positions_moved, List.map_cons]
  | declare name initial pos =>
    simp only [Stmt.moved, Stmt.positions, Stmt.positions_map_moved, List.map_cons]
  | block body => exact Stmt.positionsEach_moved body
  | branch condition whenTrue whenFalse pos =>
    simp only [Stmt.moved, Stmt.positions, Expr.positions_moved, Stmt.positions_moved whenTrue,
      Stmt.positionsElse_moved whenFalse, List.map_cons, List.map_append]
  | loop condition body increment pos =>
    simp only [Stmt.moved, Stmt.positions, Expr.positions_moved, Stmt.positions_moved body,
      Stmt.positions_map_moved, List.map_cons, List.map_append]
  | exitLoop pos => rfl
  | nextIteration pos => rfl
  | function decl => exact FunDecl.positions_moved decl
  | giveBack value pos =>
    simp only [Stmt.moved, Stmt.positions, Stmt.positions_map_moved, List.map_cons]

theorem Stmt.positionsEach_moved (sts : List Stmt) :
    Stmt.positionsEach (Stmt.movedEach μ sts) = (Stmt.positionsEach sts).map μ := by
  cases sts with
  | nil => rfl
  | cons st sts =>
    simp only [Stmt.movedEach, Stmt.positionsEach, Stmt.positions_moved st,
      Stmt.positionsEach_moved sts, List.map_append]

theorem Stmt.positionsElse_moved (st : Option Stmt) :
    Stmt.positionsElse (Stmt.movedElse μ st) = (Stmt.positionsElse st).map μ := by
  cases st with
  | none => rfl
  | some st => exact Stmt.positions_moved st

theorem FunDecl.positions_moved (decl : FunDecl) :
    (decl.moved μ).positions = decl.positions.map μ := by
  obtain ⟨name, params, body, pos⟩ := decl
  have hparams : ((·.pos) ∘ Param.moved μ) = μ ∘ fun p : Param => p.pos := rfl
  simp only [FunDecl.moved, FunDecl.positions, Stmt.positionsEach_moved body, List.map_cons,
    List.map_append, List.map_map, hparams]

end

mutual

/-- Only the positions in a statement matter to how it is moved. -/
theorem Stmt.moved_congr {st : Stmt} (h : ∀ p ∈ st.positions, μ p = ν p) :
    st.moved μ = st.moved ν := by
  cases st with
  | expression e => exact congrArg Stmt.expression (Expr.moved_congr h)
  | print e pos =>
    obtain ⟨hpos, he⟩ := List.forall_mem_cons.1 h
    simp only [Stmt.moved, hpos, Expr.moved_congr he]
  | declare name initial pos =>
    obtain ⟨hpos, hinitial⟩ := List.forall_mem_cons.1 h
    simp only [Stmt.moved, hpos, Stmt.map_moved_congr hinitial]
  | block body => exact congrArg Stmt.block (Stmt.movedEach_congr h)
  | branch condition whenTrue whenFalse pos =>
    obtain ⟨hpos, hrest⟩ := List.forall_mem_cons.1 h
    obtain ⟨hcondition, hrest⟩ := List.forall_mem_append.1 hrest
    obtain ⟨htrue, hfalse⟩ := List.forall_mem_append.1 hrest
    simp only [Stmt.moved, hpos, Expr.moved_congr hcondition, Stmt.moved_congr htrue,
      Stmt.movedElse_congr hfalse]
  | loop condition body increment pos =>
    obtain ⟨hpos, hrest⟩ := List.forall_mem_cons.1 h
    obtain ⟨hcondition, hrest⟩ := List.forall_mem_append.1 hrest
    obtain ⟨hbody, hincrement⟩ := List.forall_mem_append.1 hrest
    simp only [Stmt.moved, hpos, Expr.moved_congr hcondition, Stmt.moved_congr hbody,
      Stmt.map_moved_congr hincrement]
  | exitLoop pos => simp only [Stmt.moved, h pos List.mem_cons_self]
  | nextIteration pos => simp only [Stmt.moved, h pos List.mem_cons_self]
  | function decl => exact congrArg Stmt.function (FunDecl.moved_congr h)
  | giveBack value pos =>
    obtain ⟨hpos, hvalue⟩ := List.forall_mem_cons.1 h
    simp only [Stmt.moved, hpos, Stmt.map_moved_congr hvalue]

theorem Stmt.movedEach_congr {sts : List Stmt} (h : ∀ p ∈ Stmt.positionsEach sts, μ p = ν p) :
    Stmt.movedEach μ sts = Stmt.movedEach ν sts := by
  cases sts with
  | nil => rfl
  | cons st sts =>
    obtain ⟨hst, hsts⟩ := List.forall_mem_append.1 h
    simp only [Stmt.movedEach, Stmt.moved_congr hst, Stmt.movedEach_congr hsts]

theorem Stmt.movedElse_congr {st : Option Stmt} (h : ∀ p ∈ Stmt.positionsElse st, μ p = ν p) :
    Stmt.movedElse μ st = Stmt.movedElse ν st := by
  cases st with
  | none => rfl
  | some st => exact congrArg some (Stmt.moved_congr h)

theorem FunDecl.moved_congr {decl : FunDecl} (h : ∀ p ∈ decl.positions, μ p = ν p) :
    decl.moved μ = decl.moved ν := by
  obtain ⟨name, params, body, pos⟩ := decl
  obtain ⟨hpos, hrest⟩ := List.forall_mem_cons.1 h
  obtain ⟨hparams, hbody⟩ := List.forall_mem_append.1 hrest
  have hmap : params.map (Param.moved μ) = params.map (Param.moved ν) :=
    List.map_congr_left fun p hp =>
      congrArg (Param.mk p.name) (hparams p.pos (List.mem_map_of_mem hp))
  simp only [FunDecl.moved, hpos, hmap, Stmt.movedEach_congr hbody]

end

mutual

theorem Stmt.moved_moved (st : Stmt) : (st.moved μ).moved ν = st.moved (ν ∘ μ) := by
  cases st with
  | expression e => exact congrArg Stmt.expression (Expr.moved_moved e)
  | print e pos => simp only [Stmt.moved, Expr.moved_moved, Function.comp_apply]
  | declare name initial pos => simp only [Stmt.moved, Stmt.map_moved_moved, Function.comp_apply]
  | block body => exact congrArg Stmt.block (Stmt.movedEach_moved body)
  | branch condition whenTrue whenFalse pos =>
    simp only [Stmt.moved, Expr.moved_moved, Stmt.moved_moved whenTrue,
      Stmt.movedElse_moved whenFalse, Function.comp_apply]
  | loop condition body increment pos =>
    simp only [Stmt.moved, Expr.moved_moved, Stmt.moved_moved body, Stmt.map_moved_moved,
      Function.comp_apply]
  | exitLoop pos => rfl
  | nextIteration pos => rfl
  | function decl => exact congrArg Stmt.function (FunDecl.moved_moved decl)
  | giveBack value pos => simp only [Stmt.moved, Stmt.map_moved_moved, Function.comp_apply]

theorem Stmt.movedEach_moved (sts : List Stmt) :
    Stmt.movedEach ν (Stmt.movedEach μ sts) = Stmt.movedEach (ν ∘ μ) sts := by
  cases sts with
  | nil => rfl
  | cons st sts =>
    simp only [Stmt.movedEach, Stmt.moved_moved st, Stmt.movedEach_moved sts]

theorem Stmt.movedElse_moved (st : Option Stmt) :
    Stmt.movedElse ν (Stmt.movedElse μ st) = Stmt.movedElse (ν ∘ μ) st := by
  cases st with
  | none => rfl
  | some st => exact congrArg some (Stmt.moved_moved st)

theorem FunDecl.moved_moved (decl : FunDecl) : (decl.moved μ).moved ν = decl.moved (ν ∘ μ) := by
  obtain ⟨name, params, body, pos⟩ := decl
  have hparams : Param.moved ν ∘ Param.moved μ = Param.moved (ν ∘ μ) := rfl
  simp only [FunDecl.moved, List.map_map, hparams, Stmt.movedEach_moved body, Function.comp_apply]

end

mutual

@[simp] theorem Stmt.moved_id (st : Stmt) : st.moved id = st := by
  cases st with
  | expression e => exact congrArg Stmt.expression (Expr.moved_id e)
  | print e pos => simp only [Stmt.moved, Expr.moved_id, id_eq]
  | declare name initial pos => simp only [Stmt.moved, Stmt.map_moved_id, id_eq]
  | block body => exact congrArg Stmt.block (Stmt.movedEach_id body)
  | branch condition whenTrue whenFalse pos =>
    simp only [Stmt.moved, Expr.moved_id, Stmt.moved_id whenTrue, Stmt.movedElse_id whenFalse,
      id_eq]
  | loop condition body increment pos =>
    simp only [Stmt.moved, Expr.moved_id, Stmt.moved_id body, Stmt.map_moved_id, id_eq]
  | exitLoop pos => rfl
  | nextIteration pos => rfl
  | function decl => exact congrArg Stmt.function (FunDecl.moved_id decl)
  | giveBack value pos => simp only [Stmt.moved, Stmt.map_moved_id, id_eq]

@[simp] theorem Stmt.movedEach_id (sts : List Stmt) : Stmt.movedEach id sts = sts := by
  cases sts with
  | nil => rfl
  | cons st sts => simp only [Stmt.movedEach, Stmt.moved_id st, Stmt.movedEach_id sts]

theorem Stmt.movedElse_id (st : Option Stmt) : Stmt.movedElse id st = st := by
  cases st with
  | none => rfl
  | some st => exact congrArg some (Stmt.moved_id st)

@[simp] theorem FunDecl.moved_id (decl : FunDecl) : decl.moved id = decl := by
  obtain ⟨name, params, body, pos⟩ := decl
  have hparams : Param.moved id = id := rfl
  simp only [FunDecl.moved, hparams, List.map_id, Stmt.movedEach_id body, id_eq]

end

/-- A tree that stays as it is stays at its positions. -/
theorem fixed_of_moved_eq_self {program : Program} (h : program.moved μ = program) :
    ∀ p ∈ program.positions, μ p = p := by
  have hmap := (Stmt.positionsEach_moved (μ := μ) program).symm.trans
    (congrArg Stmt.positionsEach h)
  intro p hp
  exact List.map_inj_left.1 (hmap.trans (List.map_id _).symm) p hp

end Script
