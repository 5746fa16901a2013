import Script.Grammar.Cursor
import Script.Syntax

/-!
# The grammar of expressions

From loosest to tightest: assignment, which groups to the right and has a plain name on its left;
the operators between two operands, which group to the left at six levels; the operators in front
of one operand; calls; and the closed forms.

- `Operator`, `Operator.level`: the operators between two operands and how tightly they bind.
- `Expr.parser`: reads the longest expression that begins at the cursor.

The readers take a budget that bounds how deep they nest; `Expr.parser` supplies one that the
tokens ahead cannot exhaust.
-/

namespace Script

/-! ## Operators between two operands -/

/-- An operator between two operands. -/
inductive Operator
  | binary (op : BinaryOp)
  | logical (op : LogicalOp)
  deriving DecidableEq

namespace Operator

/-- How tightly an operator binds: `or`, `and`, equality, comparison, sums, products. -/
def level : Operator → Nat
  | logical .or => 1
  | logical .and => 2
  | binary .equal => 3
  | binary .notEqual => 3
  | binary .less => 4
  | binary .lessEqual => 4
  | binary .greater => 4
  | binary .greaterEqual => 4
  | binary .add => 5
  | binary .subtract => 5
  | binary .multiply => 6
  | binary .divide => 6

/-- The expression that joins two operands. -/
def join (op : Operator) (left right : Expr) (pos : Position) : Expr :=
  match op with
  | binary op => .binary op left right pos
  | logical op => .logical op left right pos

end Operator

/-- The operator between two operands that a token kind stands for. -/
def TokenKind.operator? : TokenKind → Option Operator
  | .keyword .orKw => some (.logical .or)
  | .keyword .andKw => some (.logical .and)
  | .punct .equalEqual => some (.binary .equal)
  | .punct .bangEqual => some (.binary .notEqual)
  | .punct .less => some (.binary .less)
  | .punct .lessEqual => some (.binary .lessEqual)
  | .punct .greater => some (.binary .greater)
  | .punct .greaterEqual => some (.binary .greaterEqual)
  | .punct .plus => some (.binary .add)
  | .punct .minus => some (.binary .subtract)
  | .punct .star => some (.binary .multiply)
  | .punct .slash => some (.binary .divide)
  | _ => none

/-- The operator in front of an operand that a token kind stands for. -/
def TokenKind.unaryOp? : TokenKind → Option UnaryOp
  | .punct .minus => some .negate
  | .punct .bang => some .not
  | _ => none

/-- The expression that a single token at `pos` is. -/
def TokenKind.leaf? (pos : Position) : TokenKind → Option Expr
  | .number x => some (.literal (.number x) pos)
  | .string s => some (.literal (.string s) pos)
  | .keyword .trueKw => some (.literal (.bool true) pos)
  | .keyword .falseKw => some (.literal (.bool false) pos)
  | .keyword .nilKw => some (.literal .nil pos)
  | .ident name => some (.ident name pos)
  | _ => none

/-! ## The readers -/

namespace Grammar

open Script.Parser

mutual

/-- An expression. A fault in the value of an assignment is found before one in its target. -/
def expression : Nat → Parser Expr
  | 0 => unexpected
  | n + 1 => do
    let target ← operation n 1
    match ← accept? (.punct .equal) with
    | none => pure target
    | some pos =>
      let value ← expression n
      match target with
      | .ident name start => pure (.assign name value start)
      | _ => failAt pos .invalidTarget

/-- Operands joined by operators of at least the given level. -/
def operation : Nat → Nat → Parser Expr
  | 0, _ => unexpected
  | n + 1, level => do
    let left ← unary n
    operators n level left

/-- What follows the operand `left`: further operators of at least the given level, each with the
operand that binds tighter. -/
def operators : Nat → Nat → Expr → Parser Expr
  | 0, _, _ => unexpected
  | n + 1, level, left => do
    match ← next? with
    | none => pure left
    | some t =>
      match t.kind.operator? with
      | none => pure left
      | some op =>
        if op.level < level then pure left
        else
          advance
          let right ← operation n (op.level + 1)
          operators n level (op.join left right t.pos)

/-- An operand with the operators in front of it and the calls behind it. -/
def unary : Nat → Parser Expr
  | 0 => unexpected
  | n + 1 => do
    match ← next? with
    | none => unexpected
    | some t =>
      match t.kind.unaryOp? with
      | some op =>
        advance
        let operand ← unary n
        pure (.unary op operand t.pos)
      | none =>
        let callee ← closed n
        calls n callee

/-- What follows `callee`: argument lists, each a call of what was read before it. A call stands at
its closing parenthesis. -/
def calls : Nat → Expr → Parser Expr
  | 0, _ => unexpected
  | n + 1, callee => do
    match ← accept? (.punct .leftParen) with
    | none => pure callee
    | some _ =>
      let args ← if ← nextIs (.punct .rightParen) then pure [] else arguments n []
      let pos ← expect .rightParen .argumentsEnd
      calls n (.call callee args pos)

/-- Arguments behind the arguments `done`, latest first. -/
def arguments : Nat → List Expr → Parser (List Expr)
  | 0, _ => unexpected
  | n + 1, done => do
    if done.length ≥ maxArity then fail .tooManyArguments
    else
      let arg ← expression n
      match ← accept? (.punct .comma) with
      | none => pure (arg :: done).reverse
      | some _ => arguments n (arg :: done)

/-- A single token that is an expression, or an expression in parentheses. -/
def closed : Nat → Parser Expr
  | 0 => unexpected
  | n + 1 => do
    match ← next? with
    | none => unexpected
    | some t =>
      match t.kind.leaf? t.pos with
      | some e =>
        advance
        pure e
      | none =>
        if t.kind = .punct .leftParen then
          advance
          let inner ← expression n
          let _ ← expect .rightParen .groupEnd
          pure (.group inner t.pos)
        else unexpected

end

end Grammar

/-- Reads the longest expression that begins at the cursor. -/
def Expr.parser : Parser Expr :=
  fun c => Grammar.expression c.budget c

end Script
