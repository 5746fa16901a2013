import Script.Decimal.Text
import Script.Syntax
import Script.Value.Kind

/-!
# Values

- `Handle`: names a frame of the scope chain. The generation tells the frames apart that have used
  the same slot one after the other.
- `Closure`, `Value`: a declared function together with the frame it was declared in, and the
  values a script computes with.
- `Value.isTruthy`, `Value.kind`, `Value.text`: how a value decides a condition, what it is called
  in messages, and how it is printed.
- `Value.same`: the equality that scripts see. It never holds between two kinds, and functions are
  equal only if they come from the same execution of a declaration.
-/

namespace Script

/-! ## Functions -/

/-- Names a frame: the slot that holds it, and how often that slot had been freed before. -/
structure Handle where
  index : Nat
  generation : UInt32
  deriving DecidableEq, Inhabited

/-- A declared function: its identity, its declaration, and the frame it was declared in. -/
structure Closure where
  identity : Nat
  decl : FunDecl
  captured : Handle
  deriving Inhabited

/-! ## Values -/

/-- The values a script computes with. -/
inductive Value
  | number (x : Float)
  | string (s : String)
  | bool (b : Bool)
  | nil
  | function (f : Closure)
  deriving Inhabited

namespace Value

/-- The value of a constant. -/
def ofLiteral : Literal → Value
  | .number x => .number x
  | .string s => .string s
  | .bool b => .bool b
  | .nil => .nil

/-- Every value but `nil` and `false` makes a condition hold. -/
def isTruthy : Value → Bool
  | .nil => false
  | .bool b => b
  | _ => true

/-- The kind of a value. -/
def kind : Value → ValueKind
  | .number _ => .number
  | .string _ => .string
  | .bool _ => .boolean
  | .nil => .nil
  | .function _ => .function

/-- The text that printing a value writes. -/
def text : Value → String
  | .number x => Decimal.text x
  | .string s => s
  | .bool b => if b then "true" else "false"
  | .nil => "nil"
  | .function f => s!"<fun ${f.decl.name}>"

/-- The equality that scripts see. -/
def same : Value → Value → Bool
  | .number x, .number y => x == y
  | .string s, .string t => s == t
  | .bool a, .bool b => a == b
  | .nil, .nil => true
  | .function f, .function g => f.identity == g.identity
  | _, _ => false

/-- The functions that a value holds: itself, if it is one. -/
def functions : Value → List Closure
  | .function f => [f]
  | _ => []

end Value

end Script
