import Script.Proofs.Decimal.Doubles

/-!
# Rounding to a double

A double is computed from a mantissa that may be too long, an exponent, and what has been cut off
behind the mantissa. All three together are a quotient: shifting the mantissa to the right doubles
the divisor, so that rounding is a matter of the last quotient only.

- `quotient`: a mantissa with what is behind it, as a quotient.
- `rounds_quotient`: its rounded mantissa is the nearest integer.
- `toNat_pack`: the bit pattern of a mantissa at an exponent.
- `nearest_round`: a quotient is rounded to the nearest double.
-/

namespace Script.Decimal

open Float.Model Float.Model.UnpackedFloat

variable {m n d s k r : Nat} {e : ℤ} {x : Float}

/-! ## Mantissas with what has been shifted out of them -/

/-- The mantissa of a quotient, with the first bit behind it and whether there is more. -/
def quotient (n d : Nat) : ExtendedMantissa where
  mantissa := n / d
  roundBit := decide (d ≤ 2 * (n % d))
  stickyBit := decide (n % d ≠ 0 ∧ 2 * (n % d) ≠ d)

theorem ofMantissaAndAccuracy_eq (n : Nat) (hd : 0 < d) :
    .ofMantissaAndAccuracy (n / d) (accuracyOfFraction (n % d) d) = quotient n d := by
  unfold accuracyOfFraction quotient
  by_cases hexact : n % d = 0
  · rw [if_pos hexact]
    simp [ExtendedMantissa.ofMantissaAndAccuracy, hexact, hd.ne']
  · rw [if_neg hexact]
    rcases Nat.lt_trichotomy (2 * (n % d)) d with h | h | h
    · rw [Nat.compare_eq_lt.2 h]
      simp [ExtendedMantissa.ofMantissaAndAccuracy, hexact, h.ne, h]
    · rw [Nat.compare_eq_eq.2 h]
      simp [ExtendedMantissa.ofMantissaAndAccuracy, h]
    · rw [Nat.compare_eq_gt.2 h]
      simp [ExtendedMantissa.ofMantissaAndAccuracy, hexact, h.ne', h.le]

theorem shiftRightOne_quotient (n : Nat) (hd : 0 < d) :
    (quotient n d).shiftRightOne = quotient n (d * 2) := by
  have hless := Nat.mod_lt n hd
  have hmod : n % (d * 2) = n % d + d * (n / d % 2) := Nat.mod_mul
  unfold quotient ExtendedMantissa.shiftRightOne
  dsimp only
  rw [Nat.div_div_eq_div_mul, hmod]
  congr 1
  · rcases Nat.mod_two_eq_zero_or_one (n / d) with h | h <;> rw [h] <;> simp <;> omega
  · rcases Nat.mod_two_eq_zero_or_one (n / d) with h | h <;>
      rw [h, Bool.eq_iff_iff] <;> simp <;> omega

theorem shiftRight_quotient (n s : Nat) (hd : 0 < d) :
    quotient n d >>> s = quotient n (d * 2 ^ s) := by
  show s.repeat ExtendedMantissa.shiftRightOne (quotient n d) = _
  induction s with
  | zero => rw [Nat.pow_zero, Nat.mul_one]; rfl
  | succ s ih =>
    rw [Nat.repeat, ih, shiftRightOne_quotient n (Nat.mul_pos hd (Nat.two_pow_pos s)), Nat.pow_succ,
      Nat.mul_assoc]

theorem Rounds.of_division (hd : 0 < d) (hlower : 2 * (r * d) ≤ 2 * n + d)
    (hupper : 2 * n ≤ 2 * (r * d) + d)
    (heven : 2 * (r * d) = 2 * n + d ∨ 2 * n = 2 * (r * d) + d → r % 2 = 0) :
    Rounds (n / d) r := by
  have hd' : (0 : ℚ) < d := Nat.cast_pos.2 hd
  have hn : 2 * ((n : ℚ) / d) * d = 2 * n := by rw [mul_assoc, div_mul_cancel₀ _ hd'.ne']
  refine ⟨le_of_mul_le_mul_right ?_ hd', le_of_mul_le_mul_right ?_ hd', fun heq => heven ?_⟩
  · rw [add_mul, hn, one_mul, mul_assoc]
    exact_mod_cast hlower
  · rw [add_mul, hn, one_mul, mul_assoc]
    exact_mod_cast hupper
  · refine heq.imp (fun heq => ?_) fun heq => ?_
    · have hscaled := congrArg (· * (d : ℚ)) heq
      simp only [add_mul, hn, one_mul, mul_assoc] at hscaled
      exact_mod_cast hscaled
    · have hscaled := congrArg (· * (d : ℚ)) heq
      simp only [add_mul, hn, one_mul, mul_assoc] at hscaled
      exact_mod_cast hscaled

theorem rounds_quotient (n : Nat) (hd : 0 < d) :
    Rounds (n / d) (quotient n d).roundedMantissa := by
  have hn : n = n / d * d + n % d := by rw [Nat.mul_comm, Nat.div_add_mod]
  have hless := Nat.mod_lt n hd
  rcases Nat.lt_trichotomy (2 * (n % d)) d with h | h | h
  · have hround : (quotient n d).roundedMantissa = n / d := by
      unfold quotient
      rw [decide_eq_false (by omega)]
      cases decide (n % d ≠ 0 ∧ 2 * (n % d) ≠ d) <;> rfl
    rw [hround]
    exact .of_division hd (by omega) (by omega) (by omega)
  · have hround : (quotient n d).roundedMantissa = n / d + n / d % 2 := by
      unfold quotient
      rw [decide_eq_true (by omega), decide_eq_false (by omega)]
      rfl
    rw [hround]
    rcases Nat.mod_two_eq_zero_or_one (n / d) with hparity | hparity <;> rw [hparity]
    · rw [Nat.add_zero]
      exact .of_division hd (by omega) (by omega) (by omega)
    · have hnext : (n / d + 1) * d = n / d * d + d := Nat.succ_mul _ _
      exact .of_division hd (by omega) (by omega) (by omega)
  · have hround : (quotient n d).roundedMantissa = n / d + 1 := by
      unfold quotient
      rw [decide_eq_true (by omega), decide_eq_true (by omega)]
      rfl
    have hnext : (n / d + 1) * d = n / d * d + d := Nat.succ_mul _ _
    rw [hround]
    exact .of_division hd (by omega) (by omega) (by omega)

/-! ## Placing a rounded mantissa -/

theorem toNat_packComponents (exponent : BitVec 11) (mantissa : BitVec 52) :
    (packComponents .binary64 .positive exponent mantissa).toNat =
      exponent.toNat * 2 ^ 52 + mantissa.toNat := by
  unfold packComponents
  rw [BitVec.toNat_append, BitVec.toNat_append, ← Nat.shiftLeft_add_eq_or_of_lt mantissa.isLt,
    Nat.shiftLeft_eq]
  simp [Sign.toBitVec]

/-- The bit pattern of a mantissa at an exponent. -/
theorem toNat_pack (hm : 0 < m) (hupper : m < 2 ^ 53) (hk : k = 0 ∨ 2 ^ 52 ≤ m) :
    (UnpackedFloat.pack .binary64 (.finite .positive m (k - 1074) hm)).toNat =
      min (k * 2 ^ 52 + m) infinityBits := by
  have hbiased : ((k : ℤ) - 1074 + (Format.binary64.exponentBias : ℤ) +
      (Format.binary64.mantissaBitsWithoutImplicit : ℤ)).toNat = k + 1 := by
    show ((k : ℤ) - 1074 + 1023 + 52).toNat = k + 1
    omega
  have hnormal : m.log2 + 1 = Format.binary64.mantissaBits ↔ 2 ^ 52 ≤ m := by
    show m.log2 + 1 = 53 ↔ _
    rw [← Nat.le_log2 hm.ne']
    have := (Nat.log2_lt hm.ne').2 hupper
    omega
  unfold UnpackedFloat.pack infinityBits
  dsimp only
  rw [hbiased]
  by_cases hover : 2 ^ 11 ≤ k + 1 + 1
  · rw [if_pos hover, min_eq_right (by omega)]
    exact toNat_packComponents _ _
  · rw [if_neg hover, min_eq_left (by omega)]
    by_cases hm' : 2 ^ 52 ≤ m
    · rw [if_pos (hnormal.2 hm'), toNat_packComponents, BitVec.toNat_ofNat, BitVec.toNat_ofNat]
      omega
    · rw [if_neg (mt hnormal.1 hm'), toNat_packComponents, BitVec.toNat_ofNat, BitVec.toNat_ofNat]
      omega

/-- The same where the mantissa may be zero. -/
theorem toNat_pack_dite (hupper : m < 2 ^ 53) (hk : k = 0 ∨ 2 ^ 52 ≤ m) :
    (UnpackedFloat.pack .binary64 (if h : m = 0 then .zero .positive
      else .finite .positive m (k - 1074) (Nat.pos_of_ne_zero h))).toNat =
        min (k * 2 ^ 52 + m) infinityBits := by
  by_cases hzero : m = 0
  · obtain rfl : k = 0 := hk.resolve_right (by omega)
    subst hzero
    rfl
  · rw [dif_neg hzero]
    exact toNat_pack _ hupper hk

/-! ## Rounding -/

/-- The exponent at which a number is rounded. -/
theorem targetExponent_eq (m : Nat) (e : ℤ) :
    Format.binary64.targetExponent (totalExponent m e) = max (m.log2 + 1 + e - 53) (-1074) := rfl

theorem shiftToTargetExponent_quotient (n : Nat) (hd : 0 < d)
    (hs : Format.binary64.targetExponent (totalExponent (n / d) e) = e + s) :
    shiftToTargetExponent .binary64 (n / d) e (accuracyOfFraction (n % d) d) =
      (quotient n (d * 2 ^ s), e + s) := by
  have hshift : (e + (s : ℤ) - e).toNat = s := by omega
  unfold shiftToTargetExponent shiftToExponent
  dsimp only
  rw [hs, hshift, ofMantissaAndAccuracy_eq n hd, shiftRight_quotient n s hd]

theorem shiftToTargetExponent_exact (m s : Nat)
    (hs : Format.binary64.targetExponent (totalExponent m e) = e + s) :
    shiftToTargetExponent .binary64 m e .exact = (quotient m (2 ^ s), e + s) := by
  have hshift := shiftToTargetExponent_quotient (e := e) (s := s) m Nat.one_pos
    (by rwa [Nat.div_one])
  rwa [Nat.one_mul, Nat.div_one, Nat.mod_one] at hshift

/-- A rounded mantissa needs another shift only if it has carried. -/
theorem shiftToTargetExponent_rounded (hr : r ≤ 2 ^ 53) (hk : k = 0 ∨ 2 ^ 52 ≤ r) :
    shiftToTargetExponent .binary64 r (k - 1074) .exact =
      if r = 2 ^ 53 then (quotient (2 ^ 53) 2, ((k + 1 : Nat) : ℤ) - 1074)
      else (quotient r 1, k - 1074) := by
  split
  · rename_i hcarry
    have htarget : Format.binary64.targetExponent (totalExponent r (k - 1074)) =
        (k : ℤ) - 1074 + (1 : Nat) := by
      rw [targetExponent_eq, hcarry, Nat.log2_two_pow]
      omega
    have hexponent : ((k + 1 : Nat) : ℤ) - 1074 = (k : ℤ) - 1074 + (1 : Nat) := by omega
    rw [shiftToTargetExponent_exact r 1 htarget, hcarry, hexponent, Nat.pow_one]
  · rename_i hcarry
    have hlower : k = 0 ∨ 52 ≤ r.log2 := hk.imp_right fun h => (Nat.le_log2 (by omega)).2 h
    have hupper : r.log2 < 53 := by
      by_cases hzero : r = 0
      · rw [hzero]; decide
      · exact (Nat.log2_lt hzero).2 (by omega)
    have htarget : Format.binary64.targetExponent (totalExponent r (k - 1074)) =
        (k : ℤ) - 1074 + (0 : Nat) := by
      rw [targetExponent_eq]
      omega
    rw [shiftToTargetExponent_exact r 0 htarget, Nat.pow_zero, Int.natCast_zero, Int.add_zero]

/-- The bit pattern of a rounded number. -/
theorem toNat_pack_round (n : Nat) (hd : 0 < d)
    (hs : Format.binary64.targetExponent (totalExponent (n / d) e) = e + s)
    (hexponent : e + s = k - 1074)
    (hr : (quotient n (d * 2 ^ s)).roundedMantissa = r) (hcarry : r ≤ 2 ^ 53)
    (hplace : k = 0 ∨ 2 ^ 52 ≤ r) :
    (UnpackedFloat.pack .binary64 (roundWithAccuracy .binary64 .positive (n / d) e
      (accuracyOfFraction (n % d) d))).toNat = min (k * 2 ^ 52 + r) infinityBits := by
  unfold roundWithAccuracy
  rw [shiftToTargetExponent_quotient n hd hs]
  dsimp only
  rw [hr, hexponent, shiftToTargetExponent_rounded hcarry hplace]
  by_cases hmax : r = 2 ^ 53
  · rw [if_pos hmax]
    have hhalf : (quotient (2 ^ 53) 2).mantissa = 2 ^ 52 := rfl
    have hnext : (k + 1) * 2 ^ 52 + 2 ^ 52 = k * 2 ^ 52 + 2 ^ 53 := by omega
    dsimp only
    rw [hhalf, toNat_pack_dite (by omega) (by omega), hmax, hnext]
  · rw [if_neg hmax]
    have hwhole : (quotient r 1).mantissa = r := Nat.div_one r
    dsimp only
    rw [hwhole]
    exact toNat_pack_dite (by omega) hplace

/-- The number of bits that are shifted out leaves fifty-three, or fewer at the least exponent. -/
theorem exists_shift (n : Nat) (hd : 0 < d)
    (he : e ≤ Format.binary64.targetExponent (totalExponent (n / d) e)) :
    ∃ s k : Nat, Format.binary64.targetExponent (totalExponent (n / d) e) = e + s ∧
      e + s = k - 1074 ∧ n < 2 ^ 53 * (d * 2 ^ s) ∧ (k = 0 ∨ 2 ^ 52 * (d * 2 ^ s) ≤ n) := by
  rw [targetExponent_eq] at he ⊢
  obtain ⟨s, hs⟩ := Int.le.dest he
  have hupper : (n / d).log2 < 53 + s := by omega
  refine ⟨s, (e + s + 1074).toNat, hs.symm, by omega, ?_, ?_⟩
  · have hless : n / d < 2 ^ (53 + s) :=
      (Nat.lt_log2_self).trans_le (Nat.pow_le_pow_right two_pos hupper)
    rw [Nat.div_lt_iff_lt_mul hd, Nat.pow_add] at hless
    linarith
  · by_cases hleast : e + s = -1074
    · left
      omega
    · right
      have hlog : (n / d).log2 = 52 + s := by omega
      have hne : n / d ≠ 0 := by
        intro hzero
        rw [hzero, Nat.log2_zero] at hlog
        omega
      have hle : 2 ^ (52 + s) ≤ n / d := hlog ▸ Nat.log2_self_le hne
      rw [Nat.le_div_iff_mul_le hd, Nat.pow_add] at hle
      linarith

/-- **A quotient is rounded to the nearest double.** -/
theorem nearest_round (n : Nat) (hd : 0 < d)
    (he : e ≤ Format.binary64.targetExponent (totalExponent (n / d) e)) :
    Nearest (n / d * 2 ^ e) (.ofModel (Float.Model.pack
      (roundWithAccuracy .binary64 .positive (n / d) e (accuracyOfFraction (n % d) d)))) := by
  obtain ⟨s, k, hs, hexponent, hupper, hplace⟩ := exists_shift n hd he
  have hd' : 0 < d * 2 ^ s := Nat.mul_pos hd (Nat.two_pow_pos s)
  have hround := rounds_quotient n hd'
  have hcast : (0 : ℚ) < (d * 2 ^ s : Nat) := Nat.cast_pos.2 hd'
  have hupper' : (n : ℚ) / (d * 2 ^ s : Nat) < 2 ^ 53 := by
    rw [div_lt_iff₀ hcast]
    exact_mod_cast hupper
  have hplace' : k = 0 ∨ 2 ^ 52 ≤ (n : ℚ) / (d * 2 ^ s : Nat) := by
    refine hplace.imp_right fun hle => ?_
    rw [le_div_iff₀ hcast]
    exact_mod_cast hle
  have hscaled : (n : ℚ) / d * 2 ^ e = n / (d * 2 ^ s : Nat) * 2 ^ ((k : ℤ) - 1074) := by
    rw [← hexponent, zpow_add₀ two_ne_zero, zpow_natCast]
    push_cast
    field_simp
  rw [hscaled]
  exact .of_rounds hround hupper' hplace' (toNat_pack_round n hd hs hexponent rfl
    (hround.le_carry hupper') (hround.place hplace'))

end Script.Decimal
