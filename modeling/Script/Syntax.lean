import Script.Position

/-!
# Programs

The tree of a script: expressions, statements, and the operators in them. Every node that can be
at fault carries the position that a diagnostic about it names.

- `UnaryOp`, `BinaryOp`, `LogicalOp`: the operators, with their spelling (`BinaryOp.symbol`).
- `Expr`: expressions. A parenthesised expression stays a node of its own (`Expr.group`).
- `Stmt`, `FunDecl`: statements and function declarations.

A tree need not come from a text: jumps outside loops, repeated parameter names and names of any
spelling are all trees, and running them is defined.
-/

namespace Script

/-! ## Operators -/

/-- Operators in front of one operand. -/
inductive UnaryOp
  | negate
  | not
  deriving DecidableEq, Inhabited

/-- Operators that always evaluate both operands. -/
inductive BinaryOp
  | add
  | subtract
  | multiply
  | divide
  | equal
  | notEqual
  | less
  | lessEqual
  | greater
  | greaterEqual
  deriving DecidableEq, Inhabited

/-- Operators that evaluate the right operand only if the left one does not decide. -/
inductive LogicalOp
  | and
  | or
  deriving DecidableEq, Inhabited

/-- The spelling of an operator. -/
def UnaryOp.symbol : UnaryOp → String
  | .negate => "-"
  | .not => "!"

/-- The spelling of an operator. -/
def BinaryOp.symbol : BinaryOp → String
  | .add => "+"
  | .subtract => "-"
  | .multiply => "*"
  | .divide => "/"
  | .equal => "=="
  | .notEqual => "!="
  | .less => "<"
  | .lessEqual => "<="
  | .greater => ">"
  | .greaterEqual => ">="

/-- The spelling of an operator. -/
def LogicalOp.symbol : LogicalOp → String
  | .and => "and"
  | .or => "or"

/-! ## Expressions -/

/-- A constant written in the program. -/
inductive Literal
  | number (value : Float)
  | string (value : String)
  | bool (value : Bool)
  | nil
  deriving DecidableEq, Inhabited

/-- Expressions. -/
inductive Expr
  | literal (value : Literal) (pos : Position)
  | group (inner : Expr) (pos : Position)
  | ident (name : String) (pos : Position)
  | assign (name : String) (value : Expr) (pos : Position)
  | unary (op : UnaryOp) (operand : Expr) (pos : Position)
  | binary (op : BinaryOp) (left right : Expr) (pos : Position)
  | logical (op : LogicalOp) (left right : Expr) (pos : Position)
  | call (callee : Expr) (args : List Expr) (pos : Position)
  deriving Inhabited

/-! ## Statements -/

/-- A parameter of a function declaration. -/
structure Param where
  name : String
  pos : Position
  deriving DecidableEq, Inhabited

mutual

/-- Statements. `loop` covers both kinds of loop: its increment is evaluated after every iteration
that did not leave the loop, also after one cut short by `nextIteration`. -/
inductive Stmt
  | expression (e : Expr)
  | print (e : Expr) (pos : Position)
  | declare (name : String) (initial : Option Expr) (pos : Position)
  | block (body : List Stmt)
  | branch (condition : Expr) (whenTrue : Stmt) (whenFalse : Option Stmt) (pos : Position)
  | loop (condition : Expr) (body : Stmt) (increment : Option Expr) (pos : Position)
  | exitLoop (pos : Position)
  | nextIteration (pos : Position)
  | function (decl : FunDecl)
  | giveBack (value : Option Expr) (pos : Position)

/-- A function declaration. -/
structure FunDecl where
  name : String
  params : List Param
  body : List Stmt
  pos : Position

end

instance : Inhabited Stmt := ⟨.block []⟩

instance : Inhabited FunDecl := ⟨⟨"", [], [], Position.start⟩⟩

/-- The number of arguments that a function takes. -/
def FunDecl.arity (decl : FunDecl) : Nat := decl.params.length

/-- A program is the list of its top-level statements. -/
abbrev Program := List Stmt

end Script
