import Script.Diagnostic
import Script.Value

/-!
# Operators on values

- `UnaryOp.apply`, `BinaryOp.apply`: the value of an operator on operands, or the fault that their
  kinds are. Equality takes any two values, `+` joins strings too, and everything else is for
  numbers.
- `LogicalOp.decides`: whether the left operand alone is the result.
-/

namespace Script

/-- The value of an operator in front of an operand. -/
def UnaryOp.apply : UnaryOp → Value → Except Fault Value
  | .not, v => .ok (.bool !v.isTruthy)
  | .negate, .number x => .ok (.number (-x))
  | .negate, v => .error (.notNegatable v.kind)

/-- The value of an operator on two numbers. -/
def BinaryOp.onNumbers (x y : Float) : BinaryOp → Value
  | .add => .number (x + y)
  | .subtract => .number (x - y)
  | .multiply => .number (x * y)
  | .divide => .number (x / y)
  | .equal => .bool (x == y)
  | .notEqual => .bool (x != y)
  | .less => .bool (x < y)
  | .lessEqual => .bool (x <= y)
  | .greater => .bool (x > y)
  | .greaterEqual => .bool (x >= y)

/-- The value of an operator between two operands. -/
def BinaryOp.apply (op : BinaryOp) (v w : Value) : Except Fault Value :=
  match op, v, w with
  | .equal, v, w => .ok (.bool (v.same w))
  | .notEqual, v, w => .ok (.bool !v.same w)
  | op, .number x, .number y => .ok (op.onNumbers x y)
  | .add, .string s, .string t => .ok (.string (s ++ t))
  | .add, v, w => .error (.notAddable v.kind w.kind)
  | op, v, w => .error (.notNumbers op v.kind w.kind)

/-- Whether the left operand alone is the result. -/
def LogicalOp.decides (op : LogicalOp) (v : Value) : Bool :=
  match op with
  | .and => !v.isTruthy
  | .or => v.isTruthy

end Script
