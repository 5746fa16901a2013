import Mathlib.Data.Nat.Digits.Defs
import Script.Diagnostic

/-!
# What the wording of a fault is made of

A message is fixed text with words of the script in it: a name, the sign or keyword that is in the
wrong place, a single character. It keeps to one line if these words do.

- `Expr.names`, `Stmt.names`, `FunDecl.names`: the names in a tree.
- `Fault.words`: the words of a script that the message about a fault shows.
- `OneLine`: texts without line feeds.
- `Fault.oneLine_message`, `Diagnostic.oneLine_display`: a message is on one line if its words are.
-/

namespace Script

/-! ## Names in trees -/

namespace Expr

mutual

/-- The names in an expression. -/
def names : Expr → List String
  | .literal _ _ => []
  | .group inner _ => inner.names
  | .ident name _ => [name]
  | .assign name value _ => name :: value.names
  | .unary _ operand _ => operand.names
  | .binary _ left right _ => left.names ++ right.names
  | .logical _ left right _ => left.names ++ right.names
  | .call callee args _ => callee.names ++ namesEach args

/-- The names in expressions. -/
def namesEach : List Expr → List String
  | [] => []
  | e :: es => e.names ++ namesEach es

end

theorem namesEach_eq_flatMap (es : List Expr) : namesEach es = es.flatMap names := by
  induction es with
  | nil => rfl
  | cons e es ih => rw [namesEach, ih, List.flatMap_cons]

end Expr

mutual

/-- The names in a statement. -/
def Stmt.names : Stmt → List String
  | .expression e => e.names
  | .print e _ => e.names
  | .declare name initial _ => name :: initial.toList.flatMap Expr.names
  | .block body => Stmt.namesEach body
  | .branch condition whenTrue whenFalse _ =>
    condition.names ++ (whenTrue.names ++ Stmt.namesElse whenFalse)
  | .loop condition body increment _ =>
    condition.names ++ (body.names ++ increment.toList.flatMap Expr.names)
  | .exitLoop _ => []
  | .nextIteration _ => []
  | .function decl => decl.names
  | .giveBack value _ => value.toList.flatMap Expr.names

/-- The names in statements. -/
def Stmt.namesEach : List Stmt → List String
  | [] => []
  | st :: sts => st.names ++ Stmt.namesEach sts

/-- The names in a statement, if there is one. -/
def Stmt.namesElse : Option Stmt → List String
  | none => []
  | some st => st.names

/-- The names in a function declaration, its own and those of its parameters included. -/
def FunDecl.names : FunDecl → List String
  | ⟨name, params, body, _⟩ => name :: (params.map (·.name) ++ Stmt.namesEach body)

end

theorem Stmt.namesEach_eq_flatMap (sts : List Stmt) :
    Stmt.namesEach sts = sts.flatMap Stmt.names := by
  induction sts with
  | nil => rfl
  | cons st sts ih => rw [Stmt.namesEach, ih, List.flatMap_cons]

theorem Stmt.namesElse_eq_flatMap (other : Option Stmt) :
    Stmt.namesElse other = other.toList.flatMap Stmt.names := by
  cases other with
  | none => rfl
  | some st => exact (List.flatMap_singleton Stmt.names st).symm

theorem FunDecl.names_eq (decl : FunDecl) :
    decl.names = decl.name :: (decl.params.map (·.name) ++ decl.body.flatMap Stmt.names) := by
  cases decl with
  | mk name params body pos => rw [FunDecl.names, Stmt.namesEach_eq_flatMap]

/-! ## Words in messages -/

/-- The words of a script that the message about a missing token shows. -/
def Expectation.words : Expectation → List String
  | jumpEnd word => [word]
  | _ => []

/-- The words that the message about a fault shows, of the script or of what refused its output. -/
def Fault.words : Fault → List String
  | unexpectedCharacter c => [String.singleton c]
  | unexpectedToken found => [found]
  | missing what => what.words
  | outsideLoop word => [word]
  | duplicateParameter name => [name]
  | undefined name => [name]
  | redefined name => [name]
  | wrongArity function _ _ => [function]
  | outputFailed reason => [reason]
  | _ => []

/-! ## Texts on one line -/

/-- The text has no line feed. -/
def OneLine (text : String) : Prop := '\n' ∉ text.toList

instance (text : String) : Decidable (OneLine text) :=
  inferInstanceAs (Decidable ('\n' ∉ text.toList))

@[simp] theorem oneLine_append_iff {s t : String} : OneLine (s ++ t) ↔ OneLine s ∧ OneLine t := by
  unfold OneLine
  rw [String.toList_append, List.mem_append, not_or]

theorem oneLine_repr (n : Nat) : OneLine n.repr := by
  unfold OneLine
  rw [Nat.toList_repr]
  intro h
  exact absurd (Nat.isDigit_of_mem_toDigits (by decide) (by decide) h) (by decide)

/-- Fixed text around a word. -/
theorem oneLine_around {before word after : String} (hbefore : OneLine before)
    (hword : OneLine word) (hafter : OneLine after) : OneLine (before ++ word ++ after) :=
  oneLine_append_iff.2 ⟨oneLine_append_iff.2 ⟨hbefore, hword⟩, hafter⟩

theorem ValueKind.oneLine_name (kind : ValueKind) : OneLine kind.name := by
  cases kind <;> decide

theorem BinaryOp.oneLine_symbol (op : BinaryOp) : OneLine op.symbol := by
  cases op <;> decide

theorem Expectation.oneLine_message {what : Expectation} (h : ∀ w ∈ what.words, OneLine w) :
    OneLine what.message := by
  cases what with
  | jumpEnd word => exact oneLine_around (by decide) (h word List.mem_cons_self) (by decide)
  | _ => decide

/-- **The message about a fault is on one line if its words are.** -/
theorem Fault.oneLine_message {fault : Fault} (h : ∀ w ∈ fault.words, OneLine w) :
    OneLine fault.message := by
  cases fault with
  | missing what => exact Expectation.oneLine_message h
  | unexpectedCharacter c => exact oneLine_around (by decide) (h _ List.mem_cons_self) (by decide)
  | unexpectedToken found => exact oneLine_around (by decide) (h _ List.mem_cons_self) (by decide)
  | outsideLoop word => exact oneLine_around (by decide) (h _ List.mem_cons_self) (by decide)
  | duplicateParameter name => exact oneLine_around (by decide) (h _ List.mem_cons_self) (by decide)
  | undefined name => exact oneLine_around (by decide) (h _ List.mem_cons_self) (by decide)
  | redefined name => exact oneLine_around (by decide) (h _ List.mem_cons_self) (by decide)
  | outputFailed reason => exact oneLine_around (by decide) (h _ List.mem_cons_self) (by decide)
  | notAddable left right =>
    exact oneLine_around (oneLine_around (by decide) left.oneLine_name (by decide))
      right.oneLine_name (by decide)
  | notNumbers op left right =>
    refine oneLine_around (oneLine_around ?_ left.oneLine_name (by decide))
      right.oneLine_name (by decide)
    exact oneLine_around (by decide) op.oneLine_symbol (by decide)
  | notNegatable operand => exact oneLine_around (by decide) operand.oneLine_name (by decide)
  | notCallable callee => exact oneLine_around (by decide) callee.oneLine_name (by decide)
  | wrongArity function expected given =>
    refine oneLine_around (oneLine_around ?_ (oneLine_repr expected) (by decide))
      (oneLine_repr given) (by decide)
    exact oneLine_around (by decide) (h function List.mem_cons_self) (by decide)
  | tooManyParameters => exact oneLine_around (by decide) (oneLine_repr maxArity) (by decide)
  | tooManyArguments => exact oneLine_around (by decide) (oneLine_repr maxArity) (by decide)
  | callsTooDeep limit => exact oneLine_around (by decide) (oneLine_repr limit) (by decide)
  | _ => decide

/-- So is what is shown of a diagnostic. -/
theorem Diagnostic.oneLine_display {d : Diagnostic} (h : ∀ w ∈ d.fault.words, OneLine w) :
    OneLine d.display := by
  refine oneLine_append_iff.2 ⟨?_, Fault.oneLine_message h⟩
  exact oneLine_around (by decide) (oneLine_repr d.pos.line) (by decide)

end Script
