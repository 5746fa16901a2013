/-!
# Reading decimal numerals

- `Decimal.value`: the natural number that a run of digits denotes.
- `Decimal.toFloat`: the double nearest to the number `whole.fraction`; a half goes to the double
  with an even significand.
-/

namespace Script.Decimal

/-- The natural number that a run of decimal digits denotes. -/
def value (digits : List Char) : Nat :=
  digits.foldl (fun n d => 10 * n + (d.toNat - '0'.toNat)) 0

/-- The double nearest to the number written with the digits `whole` before the point and
`fraction` behind it. -/
def toFloat (whole fraction : List Char) : Float :=
  Float.ofScientific (value (whole ++ fraction)) true fraction.length

@[simp] theorem value_nil : value [] = 0 := rfl

theorem value_append_singleton (digits : List Char) (d : Char) :
    value (digits ++ [d]) = 10 * value digits + (d.toNat - '0'.toNat) := by
  simp [value]

end Script.Decimal
