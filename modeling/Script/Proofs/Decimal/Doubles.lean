import Mathlib.Algebra.Order.Field.Power
import Mathlib.Algebra.Order.Field.Rat
import Mathlib.Tactic.Linarith
import Mathlib.Tactic.Positivity
import Mathlib.Tactic.Ring
import Mathlib.Tactic.FieldSimp

/-!
# The nearest double

A double without a sign stands for a number, and these numbers grow with the bit patterns, from one
power of two into the next. What is nearest to a number is therefore settled by the two neighbours
of a pattern, and where the neighbours are as near, exactly one of them is even.

- `amount`: the number that a bit pattern stands for.
- `Nearest`: a double is the nearest to a number, and the even one of two that are as near.
- `Nearest.unique`: there is only one.
- `Nearest.of_rounds`: it is found by rounding to a whole number of units of the last place.
-/

namespace Script.Decimal

/-! ## The numbers that doubles stand for -/

/-- The bit pattern of infinity. The patterns below it are those of the other doubles without a
sign, in their order. -/
def infinityBits : Nat := 2047 * 2 ^ 52

/-- The number that a bit pattern stands for, in units of the least positive double. Infinity counts
as the number that would come next. -/
def magnitude (bits : Nat) : Nat :=
  if bits < 2 ^ 52 then bits else (2 ^ 52 + bits % 2 ^ 52) * 2 ^ (bits / 2 ^ 52 - 1)

/-- The number that a bit pattern stands for. -/
def amount (bits : Nat) : ℚ := magnitude bits * 2 ^ (-1074 : ℤ)

variable {bits k r : Nat} {q : ℚ} {x x' : Float}

theorem magnitude_of_place (hr : r ≤ 2 ^ 53) (hk : k = 0 ∨ 2 ^ 52 ≤ r) :
    magnitude (k * 2 ^ 52 + r) = r * 2 ^ k := by
  unfold magnitude
  by_cases hlow : r < 2 ^ 52
  · obtain rfl : k = 0 := hk.resolve_right (by omega)
    rw [if_pos (by omega)]
    omega
  · rw [if_neg (by omega)]
    by_cases hcarry : r = 2 ^ 53
    · have hmod : (k * 2 ^ 52 + r) % 2 ^ 52 = 0 := by omega
      have hdiv : (k * 2 ^ 52 + r) / 2 ^ 52 - 1 = k + 1 := by omega
      rw [hmod, hdiv, hcarry, Nat.pow_succ]
      omega
    · have hmod : 2 ^ 52 + (k * 2 ^ 52 + r) % 2 ^ 52 = r := by omega
      have hdiv : (k * 2 ^ 52 + r) / 2 ^ 52 - 1 = k := by omega
      rw [hmod, hdiv]

theorem exists_place (bits : Nat) :
    ∃ k r, bits = k * 2 ^ 52 + r ∧ r < 2 ^ 53 ∧ (k = 0 ∨ 2 ^ 52 ≤ r) := by
  by_cases hlow : bits < 2 ^ 52
  · exact ⟨0, bits, by omega, by omega, .inl rfl⟩
  · exact ⟨bits / 2 ^ 52 - 1, 2 ^ 52 + bits % 2 ^ 52, by omega, by omega, .inr (by omega)⟩

theorem magnitude_lt_succ (bits : Nat) : magnitude bits < magnitude (bits + 1) := by
  obtain ⟨k, r, rfl, hr, hk⟩ := exists_place bits
  rw [magnitude_of_place hr.le hk, Nat.add_assoc, magnitude_of_place (by omega) (by omega)]
  exact Nat.mul_lt_mul_of_pos_right r.lt_succ_self (Nat.two_pow_pos k)

theorem amount_strictMono : StrictMono amount := by
  refine strictMono_nat_of_lt_succ fun bits => ?_
  have hnext : (magnitude bits : ℚ) < magnitude (bits + 1) := Nat.cast_lt.2 (magnitude_lt_succ bits)
  exact mul_lt_mul_of_pos_right hnext (zpow_pos two_pos _)

theorem amount_of_place (hr : r ≤ 2 ^ 53) (hk : k = 0 ∨ 2 ^ 52 ≤ r) :
    amount (k * 2 ^ 52 + r) = r * 2 ^ ((k : ℤ) - 1074) := by
  rw [amount, magnitude_of_place hr hk, sub_eq_add_neg, zpow_add₀ two_ne_zero, zpow_natCast,
    Nat.cast_mul, Nat.cast_pow, mul_assoc]
  rfl

/-! ## The nearest double -/

/-- Among the doubles without a sign `x` is the nearest to the number `q`, and where another one is
as near, `x` is the one of the two with the even significand. -/
structure Nearest (q : ℚ) (x : Float) : Prop where
  unsigned : x.toBits.toNat ≤ infinityBits
  least : ∀ bits ≤ infinityBits, |q - amount x.toBits.toNat| ≤ |q - amount bits|
  even : ∀ bits ≤ infinityBits, bits ≠ x.toBits.toNat →
    |q - amount bits| = |q - amount x.toBits.toNat| → x.toBits.toNat % 2 = 0

theorem eq_of_toBits (h : x.toBits.toNat = x'.toBits.toNat) : x = x' := by
  obtain ⟨⟨b, hb⟩⟩ := x
  obtain ⟨⟨b', hb'⟩⟩ := x'
  obtain rfl : b = b' := UInt64.toNat_inj.1 h
  rfl

/-- As near to one number as to another is only what is in the middle. -/
theorem eq_middle {a b : ℚ} (hab : a ≠ b) (h : |q - a| = |q - b|) : a + b = 2 * q := by
  rcases abs_eq_abs.1 h with h | h
  · exact absurd (sub_right_injective h) hab
  · linarith

/-- If two doubles were nearest, both would be even, and one between them would be nearer. -/
theorem Nearest.not_lt (h : Nearest q x) (h' : Nearest q x') :
    ¬ x.toBits.toNat < x'.toBits.toNat := by
  intro hlt
  have hsame : |q - amount x'.toBits.toNat| = |q - amount x.toBits.toNat| :=
    le_antisymm (h'.least _ h.unsigned) (h.least _ h'.unsigned)
  have heven := h.even _ h'.unsigned hlt.ne' hsame
  have heven' := h'.even _ h.unsigned hlt.ne hsame.symm
  have hbound := h'.unsigned
  have hbetween := h.least (x.toBits.toNat + 1) (by omega)
  have hleft : amount x.toBits.toNat < amount (x.toBits.toNat + 1) :=
    amount_strictMono (Nat.lt_succ_self _)
  have hright : amount (x.toBits.toNat + 1) < amount x'.toBits.toNat :=
    amount_strictMono (by omega)
  have hmiddle := eq_middle (amount_strictMono hlt).ne' hsame
  have hnearer : |q - amount (x.toBits.toNat + 1)| < q - amount x.toBits.toNat :=
    abs_lt.2 ⟨by linarith, by linarith⟩
  exact absurd (hbetween.trans_lt hnearer) (not_lt_of_ge (le_abs_self _))

/-- There is only one nearest double. -/
theorem Nearest.unique (h : Nearest q x) (h' : Nearest q x') : x = x' :=
  eq_of_toBits (Nat.le_antisymm (Nat.le_of_not_lt (h'.not_lt h)) (Nat.le_of_not_lt (h.not_lt h')))

/-- A double is the nearest if the number lies between the middles to all others, and in a middle
only if the double is even. -/
theorem Nearest.of_middles (hx : x.toBits.toNat = bits) (hbits : bits ≤ infinityBits)
    (hbelow : ∀ b < bits, amount b + amount bits ≤ 2 * q ∧
      (amount b + amount bits = 2 * q → bits % 2 = 0))
    (habove : ∀ b ≤ infinityBits, bits < b → 2 * q ≤ amount b + amount bits ∧
      (amount b + amount bits = 2 * q → bits % 2 = 0)) :
    Nearest q x := by
  subst hx
  refine ⟨hbits, fun b hb => ?_, fun b hb hne hsame => ?_⟩
  · rcases lt_trichotomy b x.toBits.toNat with hlt | rfl | hlt
    · have hless := amount_strictMono hlt
      have hmiddle := (hbelow b hlt).1
      exact (abs_le.2 ⟨by linarith, by linarith⟩).trans (le_abs_self (q - amount b))
    · exact le_refl _
    · have hless := amount_strictMono hlt
      have hmiddle := (habove b hb hlt).1
      rw [abs_sub_comm q (amount b)]
      exact (abs_le.2 ⟨by linarith, by linarith⟩).trans (le_abs_self (amount b - q))
  · have hmiddle := eq_middle (amount_strictMono.injective.ne hne) hsame
    rcases lt_or_gt_of_ne hne with hlt | hlt
    · exact (hbelow b hlt).2 hmiddle
    · exact (habove b hb hlt).2 hmiddle

/-! ## Rounding to a whole number of units -/

/-- The integer `r` is the nearest to `y`, and the even one of two that are as near. -/
structure Rounds (y : ℚ) (r : Nat) : Prop where
  lower : 2 * (r : ℚ) ≤ 2 * y + 1
  upper : 2 * y ≤ 2 * (r : ℚ) + 1
  even : 2 * (r : ℚ) = 2 * y + 1 ∨ 2 * y = 2 * (r : ℚ) + 1 → r % 2 = 0

section Placing

variable {y : ℚ} (hround : Rounds y r) (hupper : y < 2 ^ 53) (hk : k = 0 ∨ 2 ^ 52 ≤ y)
include hround

include hupper in
theorem Rounds.le_carry : r ≤ 2 ^ 53 := by
  have hlower := hround.lower
  have hless : ((2 * r : Nat) : ℚ) < (2 * 2 ^ 53 + 1 : Nat) := by
    push_cast
    linarith
  have := Nat.cast_lt.1 hless
  omega

include hk in
theorem Rounds.place : k = 0 ∨ 2 ^ 52 ≤ r := by
  refine hk.imp_right fun hy => ?_
  have hbound := hround.upper
  have hless : ((2 * 2 ^ 52 : Nat) : ℚ) ≤ (2 * r + 1 : Nat) := by
    push_cast
    linarith
  have := Nat.cast_le.1 hless
  omega

include hupper hk

/-- The number is not below the middle to any double that is less. -/
theorem Rounds.below {b : Nat} (hb : b < k * 2 ^ 52 + r) :
    amount b + amount (k * 2 ^ 52 + r) ≤ 2 * (y * 2 ^ ((k : ℤ) - 1074)) ∧
      (amount b + amount (k * 2 ^ 52 + r) = 2 * (y * 2 ^ ((k : ℤ) - 1074)) → r % 2 = 0) := by
  have hcarry := hround.le_carry hupper
  have hplace := hround.place hk
  have hunit : (0 : ℚ) < 2 ^ ((k : ℤ) - 1074) := zpow_pos two_pos _
  have hless := amount_strictMono hb
  rw [amount_of_place hcarry hplace] at hless ⊢
  by_cases hinner : k = 0 ∨ 2 ^ 52 < r
  · -- the next double below is one unit away
    have hle := amount_strictMono.monotone (show b ≤ k * 2 ^ 52 + (r - 1) by omega)
    rw [amount_of_place (by omega) (by omega), Nat.cast_sub (by omega), Nat.cast_one] at hle
    have hmiddle := mul_le_mul_of_nonneg_right hround.lower hunit.le
    exact ⟨by linarith, fun heq => hround.even (.inl (mul_right_cancel₀ hunit.ne' (by linarith)))⟩
  · -- it may be nearer, but the number is not less than a power of two
    obtain rfl : r = 2 ^ 52 := by omega
    have hy := mul_le_mul_of_nonneg_right (hk.resolve_left (by omega)) hunit.le
    push_cast at hless ⊢
    exact ⟨by linarith, fun heq => absurd heq (by linarith)⟩

/-- The number is not above the middle to any double that is greater. -/
theorem Rounds.above {b : Nat} (hb : k * 2 ^ 52 + r < b) :
    2 * (y * 2 ^ ((k : ℤ) - 1074)) ≤ amount b + amount (k * 2 ^ 52 + r) ∧
      (amount b + amount (k * 2 ^ 52 + r) = 2 * (y * 2 ^ ((k : ℤ) - 1074)) → r % 2 = 0) := by
  have hcarry := hround.le_carry hupper
  have hplace := hround.place hk
  have hunit : (0 : ℚ) < 2 ^ ((k : ℤ) - 1074) := zpow_pos two_pos _
  have hless := amount_strictMono hb
  rw [amount_of_place hcarry hplace] at hless ⊢
  by_cases hinner : r < 2 ^ 53
  · have hle := amount_strictMono.monotone (show k * 2 ^ 52 + (r + 1) ≤ b by omega)
    rw [amount_of_place (by omega) (by omega), Nat.cast_add, Nat.cast_one] at hle
    have hmiddle := mul_le_mul_of_nonneg_right hround.upper hunit.le
    exact ⟨by linarith, fun heq => hround.even (.inr (mul_right_cancel₀ hunit.ne' (by linarith)))⟩
  · -- rounding has carried into the next power of two, which the number is less than
    obtain rfl : r = 2 ^ 53 := by omega
    have hy := mul_lt_mul_of_pos_right hupper hunit
    push_cast at hless ⊢
    exact ⟨by linarith, fun heq => absurd heq (by linarith)⟩

/-- Rounding to a whole number of units of the last place gives the nearest double. -/
theorem Nearest.of_rounds (hx : x.toBits.toNat = min (k * 2 ^ 52 + r) infinityBits) :
    Nearest (y * 2 ^ ((k : ℤ) - 1074)) x := by
  rcases le_or_gt (k * 2 ^ 52 + r) infinityBits with hfinite | hover
  · rw [min_eq_left hfinite] at hx
    refine .of_middles hx hfinite (fun b hb => ?_) fun b _ hb => ?_
    · obtain ⟨hle, heven⟩ := hround.below hupper hk hb
      exact ⟨hle, fun heq => by have := heven heq; omega⟩
    · obtain ⟨hle, heven⟩ := hround.above hupper hk hb
      exact ⟨hle, fun heq => by have := heven heq; omega⟩
  · -- the number is no less than that of infinity
    rw [min_eq_right hover.le] at hx
    have hcarry := hround.le_carry hupper
    unfold infinityBits at hover
    have hy : (2 : ℚ) ^ 52 ≤ y := hk.resolve_left (by omega)
    have hscale : (2 : ℚ) ^ ((2046 : ℤ) - 1074) ≤ 2 ^ ((k : ℤ) - 1074) :=
      zpow_le_zpow_right₀ one_le_two (by omega)
    have hinfinity : amount infinityBits = 2 ^ 52 * 2 ^ ((2046 : ℤ) - 1074) := by
      have hplace := amount_of_place (k := 2046) (r := 2 ^ 52) (by omega) (by omega)
      exact_mod_cast hplace
    have hq := mul_le_mul hy hscale (zpow_pos two_pos _).le ((pow_pos two_pos 52).le.trans hy)
    refine .of_middles hx le_rfl (fun b hb => ?_) fun b hb hlt => absurd hb (Nat.not_le_of_lt hlt)
    have hless := amount_strictMono hb
    exact ⟨by linarith, fun _ => rfl⟩

end Placing

end Script.Decimal
