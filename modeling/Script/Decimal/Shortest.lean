/-!
# The shortest decimal of a double

A double stands for every real number that is nearer to it than to its neighbours. Among the
decimals in that interval the ones on the coarsest grid have the fewest digits, and of those the
nearest is chosen.

- `Dyadic`: a positive double as significand and exponent.
- `Interval`: the interval of reals that a double stands for, over one denominator.
- `Interval.onGrid?`: the point of a decimal grid that is chosen for an interval, if it holds any.
- `Dyadic.shortest`: digits `a` and exponent `g` of the chosen decimal `a · 10 ^ g`.
-/

namespace Script.Decimal

/-! ## Doubles as exact numbers -/

/-- The positive number `significand · 2 ^ exponent`. Where the significand is the least of its
binary order, the double below is half as far away as the double above. -/
structure Dyadic where
  significand : Nat
  exponent : Int
  narrowBelow : Bool
  deriving DecidableEq

/-- The magnitude of the double with the given bits, if it is finite and not zero. Below the leading
one of a significand there are fifty-two bits; only the smallest doubles lack the leading one. -/
def Dyadic.ofBits? (bits : UInt64) : Option Dyadic :=
  let order := ((bits >>> 52) &&& 0x7ff).toNat
  let fraction := (bits &&& 0xfffffffffffff).toNat
  if order = 0x7ff then none
  else if order = 0 then
    if fraction = 0 then none else some ⟨fraction, -1074, false⟩
  else
    some ⟨0x10000000000000 + fraction, (order : Int) - 1075, fraction = 0 && 1 < order⟩

/-! ## What a double stands for -/

/-- The interval from `low` to `high` around `mid`, all three over the denominator `unit`. The ends
belong to the interval if it is `closed`. -/
structure Interval where
  low : Nat
  mid : Nat
  high : Nat
  unit : Nat
  closed : Bool
  deriving DecidableEq

/-- The numbers nearer to a double than to its neighbours. A number half-way between two doubles is
read as the one with the even significand. -/
def Dyadic.interval (d : Dyadic) : Interval :=
  let scale := Nat.pow 2 (d.exponent - 2).toNat
  { low := (4 * d.significand - if d.narrowBelow then 1 else 2) * scale
    mid := 4 * d.significand * scale
    high := (4 * d.significand + 2) * scale
    unit := Nat.pow 2 (2 - d.exponent).toNat
    closed := d.significand % 2 = 0 }

/-- Whether the number `p / unit` lies in an interval. -/
def Interval.holds (s : Interval) (p : Nat) : Bool :=
  if s.closed then s.low ≤ p && p ≤ s.high else s.low < p && p < s.high

/-! ## Points of a decimal grid -/

/-- The interval in units of `10 ^ g`. -/
def Interval.inUnits (s : Interval) (g : Int) : Interval :=
  let scale := Nat.pow 10 (-g).toNat
  { s with
    low := s.low * scale
    mid := s.mid * scale
    high := s.high * scale
    unit := s.unit * Nat.pow 10 g.toNat }

/-- The multiple of `10 ^ g` that is chosen for an interval, if the interval holds any: of the two
around the middle the nearer, and the upper one if they are equally near. -/
def Interval.onGrid? (s : Interval) (g : Int) : Option Nat :=
  let t := s.inUnits g
  let below := t.mid / t.unit
  let above := below + 1
  match t.holds (below * t.unit), t.holds (above * t.unit) with
  | false, false => none
  | true, false => some below
  | false, true => some above
  | true, true => some (if 2 * (t.mid - below * t.unit) < t.unit then below else above)

/-- The exponent of a power of ten that is no smaller than the middle of an interval and at most
two orders above it. -/
def Interval.gridAbove (s : Interval) : Int :=
  ((Nat.log2 s.mid : Int) - (Nat.log2 s.unit : Int) + 1) * 30103 / 100000 + 1

/-- The coarsest decimal grid with a point in the interval, tried from a coarse one on, and that
point. Seventeen digits always suffice, so twenty-four grids are more than enough. -/
def Dyadic.shortest (d : Dyadic) : Nat × Int :=
  let s := d.interval
  let found := (List.range 24).findSome? fun (i : Nat) =>
    (s.onGrid? (s.gridAbove - i)).map fun a => (a, s.gridAbove - i)
  found.getD (s.mid / s.unit, 0)

end Script.Decimal
