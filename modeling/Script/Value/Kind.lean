/-!
# Kinds of values

- `ValueKind`: the five kinds of values a script computes with.
- `ValueKind.name`: the name by which messages refer to a kind.
-/

namespace Script

/-- The kind of a value. -/
inductive ValueKind
  | number
  | string
  | boolean
  | nil
  | function
  deriving DecidableEq, Inhabited

/-- The name by which messages refer to a kind. -/
def ValueKind.name : ValueKind → String
  | .number => "number"
  | .string => "string"
  | .boolean => "boolean"
  | .nil => "nil"
  | .function => "function"

end Script
