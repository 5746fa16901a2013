import Script.Proofs.Decimal.Division
import Script.Decimal.Reading
import Mathlib.Data.Nat.Digits.Defs

/-!
# Numerals are read to the nearest double

The number of a numeral is said by its digits, before the point and behind it. Short numerals are
read by one division of two doubles that are exact, the others are divided with all their digits;
both ways there is one rounding.

- `numeral`: the number that a numeral stands for.
- `toFloat_nearest`: it is read as the double nearest to it.
-/

namespace Script.Decimal

open Float.Model Float.Model.UnpackedFloat

variable {x : Float}

/-! ## Integers -/

/-- A number that a double stands for is rounded to that double. -/
theorem Nearest.toNat_eq {bits : Nat} (h : Nearest (amount bits) x) (hbits : bits ≤ infinityBits) :
    x.toBits.toNat = bits := by
  have hleast := h.least bits hbits
  rw [sub_self, abs_zero] at hleast
  exact amount_strictMono.injective (sub_eq_zero.1 (abs_nonpos_iff.1 hleast)).symm

/-- An integer of at most fifty-three bits is the number of a double. -/
theorem exists_amount {n : Nat} (hn : n < 2 ^ 53) : ∃ bits < infinityBits, amount bits = n := by
  by_cases hzero : n = 0
  · exact ⟨0, by decide, by rw [hzero, amount_zero, Nat.cast_zero]⟩
  · have hlog : n.log2 < 53 := (Nat.log2_lt hzero).2 hn
    obtain ⟨s, hs⟩ : ∃ s, n.log2 + s = 52 := ⟨52 - n.log2, by omega⟩
    have hlower : 2 ^ 52 ≤ n * 2 ^ s := by
      rw [← hs, Nat.pow_add]
      exact Nat.mul_le_mul_right _ (Nat.log2_self_le hzero)
    have hupper : n * 2 ^ s < 2 ^ 53 := by
      have hpow : 2 ^ 53 = 2 ^ (n.log2 + 1) * 2 ^ s := by rw [← Nat.pow_add]; congr 1; omega
      rw [hpow]
      exact Nat.mul_lt_mul_of_pos_right Nat.lt_log2_self (Nat.two_pow_pos s)
    refine ⟨(1074 - s) * 2 ^ 52 + n * 2 ^ s, by unfold infinityBits; omega, ?_⟩
    have hscale : ((1074 - s : Nat) : ℤ) - 1074 = -(s : ℤ) := by omega
    rw [amount_of_place hupper.le (.inr hlower), hscale, zpow_neg, zpow_natCast, Nat.cast_mul,
      Nat.cast_pow, Nat.cast_ofNat, mul_inv_cancel_right₀ (pow_ne_zero _ two_ne_zero)]

/-- An integer is rounded to the nearest double once it has been scaled to enough bits. -/
theorem nearest_scaled {n s : Nat} (hn : 0 < n)
    (hs : -(s : ℤ) ≤ Format.binary64.targetExponent (totalExponent n 0)) :
    Nearest n (.ofModel (Float.Model.pack
      (roundWithAccuracy .binary64 .positive (n * 2 ^ s) (-s) .exact))) := by
  have hle : 2 ^ (n.log2 + s) ≤ n * 2 ^ s := by
    rw [Nat.pow_add]
    exact Nat.mul_le_mul_right _ (Nat.log2_self_le hn.ne')
  have hlog : n.log2 + s ≤ (n * 2 ^ s).log2 :=
    (Nat.le_log2 (Nat.mul_pos hn (Nat.two_pow_pos s)).ne').2 hle
  have htarget : -(s : ℤ) ≤
      Format.binary64.targetExponent (totalExponent (n * 2 ^ s / 1) (-s)) := by
    rw [targetExponent_eq] at hs
    rw [targetExponent_eq, Nat.div_one]
    omega
  have hnearest := nearest_round (n * 2 ^ s) Nat.one_pos htarget
  have hamount : ((n * 2 ^ s : Nat) : ℚ) / (1 : Nat) * 2 ^ (-(s : ℤ)) = n := by
    rw [Nat.cast_one, div_one, Nat.cast_mul, Nat.cast_pow, Nat.cast_ofNat, zpow_neg, zpow_natCast,
      mul_inv_cancel_right₀ (pow_ne_zero _ two_ne_zero)]
  rwa [hamount, Nat.div_one, Nat.mod_one] at hnearest

/-- An integer is converted to the nearest double. -/
theorem nearest_toFloat {n : Nat} (hn : n < 2 ^ 64) : Nearest n n.toUInt64.toFloat := by
  rcases Nat.eq_zero_or_pos n with rfl | hpos
  · exact .zero rfl (by rw [Nat.cast_zero, mul_zero]; exact mul_nonneg (by simp) (by simp))
  · obtain ⟨s, hs⟩ : ∃ s, s = (0 - Format.binary64.targetExponent (totalExponent n 0)).toNat :=
      ⟨_, rfl⟩
    have hfits : n.toUInt64.toNat = n := by
      show n % 2 ^ 64 = n
      exact Nat.mod_eq_of_lt hn
    have hround : n.toUInt64.toFloat = .ofModel (Float.Model.pack
        (roundWithAccuracy .binary64 .positive (n * 2 ^ s) (-s) .exact)) := by
      show Float.ofModel (Float.Model.pack
        (UnpackedFloat.normalize .binary64 (n.toUInt64.toNat : ℤ) 0 .positive)) = _
      unfold UnpackedFloat.normalize UnpackedFloat.round decreaseExponent
      rw [hfits, Int.compare_eq_gt.2 (by omega)]
      dsimp only
      rw [Int.toNat_natCast, ← hs, Nat.shiftLeft_eq, Int.zero_sub]
    rw [hround]
    exact nearest_scaled hpos (by omega)

/-- An integer of at most fifty-three bits is converted without loss. -/
theorem amount_toFloat {n : Nat} (hn : n < 2 ^ 53) :
    n.toUInt64.toFloat.toBits.toNat < infinityBits ∧
      amount n.toUInt64.toFloat.toBits.toNat = n := by
  obtain ⟨bits, hbits, hamount⟩ := exists_amount hn
  have hnearest := nearest_toFloat (show n < 2 ^ 64 by omega)
  rw [← hamount] at hnearest
  rw [hnearest.toNat_eq hbits.le]
  exact ⟨hbits, hamount⟩

theorem magnitude_powersOfTen : ∀ k : Fin 23,
    let bits := (Float.exactlyRepresentablePowersOfTen[k]).toBits.toNat
    0 < bits ∧ bits < infinityBits ∧ magnitude bits = 10 ^ k.val * 2 ^ 1074 := by
  decide +kernel

/-! ## Numerals -/

/-- The number that a decimal digit stands for. -/
def digit (c : Char) : Nat := c.toNat - '0'.toNat

/-- The number that a numeral with the digits `whole` before the point and `fraction` behind it
stands for. -/
def numeral (whole fraction : List Char) : ℚ :=
  (Nat.ofDigits 10 (whole.reverse.map digit) : Nat) +
    (Nat.ofDigits 10 (fraction.reverse.map digit) : Nat) / 10 ^ fraction.length

theorem value_eq_ofDigits (digits : List Char) :
    value digits = Nat.ofDigits 10 (digits.reverse.map digit) := by
  induction digits using List.reverseRecOn with
  | nil => rw [value_nil]; rfl
  | append_singleton digits c ih =>
    rw [value_append_singleton, ih, List.reverse_append, List.reverse_singleton, List.map_append,
      List.map_singleton, List.singleton_append, Nat.ofDigits_cons, Nat.add_comm]
    rfl

theorem value_append (whole fraction : List Char) :
    value (whole ++ fraction) = value fraction + 10 ^ fraction.length * value whole := by
  rw [value_eq_ofDigits, value_eq_ofDigits, value_eq_ofDigits, List.reverse_append,
    List.map_append, Nat.ofDigits_append, List.length_map, List.length_reverse]

theorem numeral_eq_value_div (whole fraction : List Char) :
    numeral whole fraction = value (whole ++ fraction) / (10 ^ fraction.length : Nat) := by
  rw [numeral, ← value_eq_ofDigits, ← value_eq_ofDigits, value_append]
  push_cast
  field_simp
  ring

/-! ## Reading numerals -/

/-- A number with so many places after the point is no more than half of the least double. -/
theorem two_mul_div_le_amount_one {n places : Nat} (hplaces : 2 ^ 11 + n.log2 < places) :
    2 * ((n : ℚ) / (10 ^ places : Nat)) ≤ amount 1 := by
  have hn : (n : ℚ) ≤ 2 ^ (n.log2 + 1) := by exact_mod_cast Nat.lt_log2_self.le
  have hpower : (2 : ℚ) ^ places ≤ (10 ^ places : Nat) := by
    exact_mod_cast Nat.pow_le_pow_left (show 2 ≤ 10 by decide) places
  calc 2 * ((n : ℚ) / (10 ^ places : Nat)) ≤ 2 * (2 ^ (n.log2 + 1) / 2 ^ places) := by gcongr
    _ = 2 ^ ((n.log2 + 2 : Nat) - (places : ℤ)) := by
      rw [zpow_sub₀ two_ne_zero, zpow_natCast, zpow_natCast, pow_succ' 2 (n.log2 + 1),
        mul_div_assoc]
    _ ≤ 2 ^ (-1074 : ℤ) := zpow_le_zpow_right₀ one_le_two (by omega)
    _ = amount 1 := (one_mul _).symm

/-- Short numerals are read by one division of doubles. -/
theorem nearest_div_powerOfTen {n : Nat} (hn : n < 2 ^ 53) (k : Fin 23) :
    Nearest (n / (10 ^ k.val : Nat))
      (n.toUInt64.toFloat / Float.exactlyRepresentablePowersOfTen[k]) := by
  obtain ⟨hfinite, hamount⟩ := amount_toFloat hn
  obtain ⟨hpos, hfinite', hmagnitude⟩ := magnitude_powersOfTen k
  have hpower : amount (Float.exactlyRepresentablePowersOfTen[k]).toBits.toNat =
      (10 ^ k.val : Nat) := by
    rw [amount, hmagnitude, Nat.cast_mul, Nat.cast_pow 2, Nat.cast_ofNat, zpow_neg, zpow_ofNat,
      mul_inv_cancel_right₀ (pow_ne_zero _ two_ne_zero)]
  rw [← hamount, ← hpower]
  exact nearest_div hfinite hpos hfinite'

theorem mul_finite {m₁ m₂ : Nat} {e₁ e₂ : ℤ} (h₁ : 0 < m₁) (h₂ : 0 < m₂) :
    UnpackedFloat.mul .binary64 (.finite .positive m₁ e₁ h₁) (.finite .positive m₂ e₂ h₂) =
      roundWithAccuracy .binary64 .positive (m₁ * m₂) (e₁ + e₂) .exact := rfl

/-- The others are divided with all their digits and rounded once. -/
theorem nearest_ofScientific (n places : Nat) :
    Nearest (n / (10 ^ places : Nat)) (.ofModel (.ofScientific n (Int.negOfNat places))) := by
  have hexponent : Int.negOfNat places = -(places : ℤ) := Int.negOfNat_eq
  unfold Float.Model.ofScientific UnpackedFloat.ofScientific
  rw [hexponent]
  by_cases hzero : n = 0
  · rw [dif_pos hzero]
    refine .zero rfl ?_
    rw [hzero, Nat.cast_zero, zero_div, mul_zero, ← amount_zero]
    exact (amount_strictMono Nat.one_pos).le
  have hn : 0 < n := Nat.pos_of_ne_zero hzero
  rw [dif_neg hzero, if_neg (show ¬ -(places : ℤ) > 2 ^ 11 by omega)]
  by_cases hsmall : -(places : ℤ) < -(2 ^ 11 + (n.log2 : ℤ))
  · rw [if_pos hsmall]
    exact .zero rfl (two_mul_div_le_amount_one (by omega))
  rw [if_neg hsmall]
  by_cases hwhole : 0 ≤ -(places : ℤ)
  · obtain rfl : places = 0 := by omega
    rw [if_pos hwhole]
    have hscaled := nearest_scaled (s := 53) hn (by rw [targetExponent_eq]; omega)
    have hbits : Format.binary64.mantissaBits = 53 := rfl
    rw [mul_finite, Int.natCast_zero, Int.neg_zero, Int.toNat_zero, Nat.pow_zero, Nat.mul_one,
      Nat.cast_one, div_one, Nat.shiftLeft_eq, Int.add_zero, hbits]
    exact hscaled
  · rw [if_neg hwhole]
    have hpower : 0 < 10 ^ (-(-(places : ℤ))).toNat := Nat.pow_pos (by decide)
    have hdiv := nearest_div_finite 0 0 hn hpower
    have hquotient : (n : ℚ) * 2 ^ (0 : ℤ) / ((10 ^ (-(-(places : ℤ))).toNat : Nat) * 2 ^ (0 : ℤ)) =
        n / (10 ^ places : Nat) := by
      rw [zpow_zero, mul_one, mul_one, Int.neg_neg, Int.toNat_natCast]
    rwa [hquotient] at hdiv

/-- **A numeral is read as the double nearest to its number.** -/
theorem toFloat_nearest (whole fraction : List Char) :
    Nearest (numeral whole fraction) (toFloat whole fraction) := by
  rw [numeral_eq_value_div, toFloat, Float.ofScientific]
  by_cases hshort : value (whole ++ fraction) < 2 ^ 53 ∧ fraction.length ≤ 22
  · rw [dif_pos hshort]
    exact nearest_div_powerOfTen hshort.1 ⟨fraction.length, Nat.lt_succ_of_le hshort.2⟩
  · rw [dif_neg hshort]
    exact nearest_ofScientific _ _

end Script.Decimal
