import Script.Decimal.Shortest

/-!
# Numbers as text

Numbers are written positionally whatever their size, with the fewest digits that read back as the
same number. A whole number has no point, and the sign of a negative zero is kept.

- `positional`: the text of `a · 10 ^ g`.
- `text`: the text of a number.
-/

namespace Script.Decimal

/-- The text of `a · 10 ^ g` without an exponent: zeros are put behind the digits, or in front of
them where the point needs a digit on its left. -/
def positional (a : Nat) (g : Int) : String :=
  let digits := Nat.toDigits 10 a
  if 0 ≤ g then String.ofList (digits ++ List.replicate g.toNat '0')
  else
    let places := (-g).toNat
    let padded := List.replicate (places + 1 - digits.length) '0' ++ digits
    let whole := padded.take (padded.length - places)
    let fraction := padded.drop (padded.length - places)
    String.ofList (whole ++ '.' :: fraction)

/-- The text of a number. -/
def text (x : Float) : String :=
  if x.isNaN then "NaN"
  else
    let sign := if x.toBits >>> 63 = 1 then "-" else ""
    if x.isInf then sign ++ "inf"
    else
      match Dyadic.ofBits? x.toBits with
      | none => sign ++ "0"
      | some d =>
        let (a, g) := d.shortest
        sign ++ positional a g

end Script.Decimal
