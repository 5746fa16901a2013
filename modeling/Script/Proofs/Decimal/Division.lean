import Script.Proofs.Decimal.Rounding

/-!
# Dividing doubles

- `nearest_div_finite`: a quotient of two mantissas with exponents is the nearest double.
- `exists_unpack`: a bit pattern is taken apart into a mantissa and an exponent of its number.
- `nearest_div`: the quotient of two doubles is the double nearest to the quotient of their numbers.
-/

namespace Script.Decimal

open Float.Model Float.Model.UnpackedFloat

/-! ## Dividing -/

variable {m₁ m₂ : Nat} {e₁ e₂ : ℤ}

/-- A quotient is computed with enough bits. -/
theorem le_targetExponent_quotient {t : ℤ} {shift : Nat} (h₁ : 0 < m₁) (h₂ : 0 < m₂)
    (ht : t ≤ Format.binary64.targetExponent (totalExponent m₁ e₁ - totalExponent m₂ e₂))
    (hshift : e₁ - e₂ - t = shift) :
    t ≤ Format.binary64.targetExponent (totalExponent (m₁ * 2 ^ shift / m₂) t) := by
  rw [targetExponent_eq]
  by_cases hleast : t ≤ -1074
  · exact hleast.trans (le_max_right ..)
  · have hbits : 53 + m₂.log2 ≤ m₁.log2 + shift := by
      unfold totalExponent at ht
      have hmax : t ≤ max ((m₁.log2 + 1 + e₁) - (m₂.log2 + 1 + e₂) - 53) (-1074) := ht
      omega
    have hlarge : 2 ^ 52 * m₂ ≤ m₁ * 2 ^ shift := by
      calc 2 ^ 52 * m₂ ≤ 2 ^ 52 * 2 ^ (m₂.log2 + 1) := Nat.mul_le_mul_left _ Nat.lt_log2_self.le
        _ = 2 ^ (53 + m₂.log2) := by rw [← Nat.pow_add]; congr 1; omega
        _ ≤ 2 ^ (m₁.log2 + shift) := Nat.pow_le_pow_right two_pos hbits
        _ = 2 ^ m₁.log2 * 2 ^ shift := Nat.pow_add ..
        _ ≤ m₁ * 2 ^ shift := Nat.mul_le_mul_right _ (Nat.log2_self_le h₁.ne')
    have hquotient : 2 ^ 52 ≤ m₁ * 2 ^ shift / m₂ := (Nat.le_div_iff_mul_le h₂).2 hlarge
    have hlog : 52 ≤ (m₁ * 2 ^ shift / m₂).log2 := (Nat.le_log2 (by omega)).2 hquotient
    omega

/-- Division gives the nearest double. -/
theorem nearest_div_finite (e₁ e₂ : ℤ) (h₁ : 0 < m₁) (h₂ : 0 < m₂) :
    Nearest (m₁ * 2 ^ e₁ / (m₂ * 2 ^ e₂)) (.ofModel (Float.Model.pack (UnpackedFloat.div .binary64
      (.finite .positive m₁ e₁ h₁) (.finite .positive m₂ e₂ h₂)))) := by
  have hm₂ : (m₂ : ℚ) ≠ 0 := Nat.cast_ne_zero.2 h₂.ne'
  obtain ⟨t, ht⟩ : ∃ t, t = min (e₁ - e₂)
    (Format.binary64.targetExponent (totalExponent m₁ e₁ - totalExponent m₂ e₂)) := ⟨_, rfl⟩
  obtain ⟨shift, hshift⟩ : ∃ shift : Nat, e₁ - e₂ - t = shift :=
    ⟨(e₁ - e₂ - t).toNat, by omega⟩
  have hcore : divCore .binary64 m₁ e₁ m₂ e₂ =
      (m₁ * 2 ^ shift / m₂, t, accuracyOfFraction (m₁ * 2 ^ shift % m₂) m₂) := by
    unfold divCore
    dsimp only
    rw [← ht, hshift, Int.toNat_natCast, Nat.shiftLeft_eq]
  have hscaled : (m₁ : ℚ) * 2 ^ e₁ / (m₂ * 2 ^ e₂) = (m₁ * 2 ^ shift : Nat) / m₂ * 2 ^ t := by
    have he : e₁ = shift + t + e₂ := by omega
    rw [he, zpow_add₀ two_ne_zero, zpow_add₀ two_ne_zero, zpow_natCast]
    push_cast
    field_simp
  have hle := le_targetExponent_quotient h₁ h₂ (ht.trans_le (min_le_right ..)) hshift
  have hdiv : UnpackedFloat.div .binary64 (.finite .positive m₁ e₁ h₁)
      (.finite .positive m₂ e₂ h₂) = roundWithAccuracy .binary64 .positive
        (divCore .binary64 m₁ e₁ m₂ e₂).1 (divCore .binary64 m₁ e₁ m₂ e₂).2.1
        (divCore .binary64 m₁ e₁ m₂ e₂).2.2 := rfl
  rw [hscaled, hdiv, hcore]
  exact nearest_round _ h₂ hle

/-! ## Doubles as mantissas and exponents -/

theorem toNat_unpackMantissa (b : BitVec 64) :
    (@unpackMantissa .binary64 b).toNat = b.toNat % 2 ^ 52 := by
  simp [unpackMantissa]

theorem toNat_unpackExponent (b : BitVec 64) :
    (@unpackExponent .binary64 b).toNat = b.toNat / 2 ^ 52 % 2 ^ 11 := by
  simp [unpackExponent, Nat.shiftRight_eq_div_pow]

theorem unpackSign_eq {b : BitVec 64} (h : b.toNat < 2 ^ 63) :
    @unpackSign .binary64 b = 0#1 := by
  show b.extractLsb' 63 1 = 0#1
  apply BitVec.eq_of_toNat_eq
  simp [Nat.shiftRight_eq_div_pow]
  omega

theorem toNat_append_implicit (fraction : BitVec 52) :
    (1#1 ++ fraction).toNat = 2 ^ 52 + fraction.toNat := by
  rw [BitVec.toNat_append, ← Nat.shiftLeft_add_eq_or_of_lt fraction.isLt]
  rfl

/-- A pattern between zero and infinity is unpacked to a mantissa and an exponent of its number. -/
theorem exists_unpack {b : BitVec 64} (hpos : 0 < b.toNat) (hfinite : b.toNat < infinityBits) :
    ∃ m e hm, UnpackedFloat.unpack .binary64 b = .finite .positive m e hm ∧
      (m : ℚ) * 2 ^ e = amount b.toNat := by
  unfold infinityBits at hfinite
  have hmantissa := toNat_unpackMantissa b
  have hexponent : (@unpackExponent .binary64 b).toNat = b.toNat / 2 ^ 52 := by
    rw [toNat_unpackExponent]
    omega
  have hsign : Sign.ofBitVec (@unpackSign .binary64 b) = .positive := by
    rw [unpackSign_eq (by omega)]
    rfl
  have hnotmax : @unpackExponent .binary64 b ≠ -1#_ := by
    intro hmax
    have hmax : (@unpackExponent .binary64 b).toNat = 2047 := by rw [hmax]; rfl
    omega
  unfold UnpackedFloat.unpack
  dsimp only
  rw [if_neg hnotmax, hsign]
  by_cases hlow : b.toNat < 2 ^ 52
  · have hzero : @unpackExponent .binary64 b = 0#_ := by
      apply BitVec.eq_of_toNat_eq
      rw [hexponent]
      show _ = 0
      omega
    have hne : @unpackMantissa .binary64 b ≠ 0#_ := by
      intro hzero
      have hzero : (@unpackMantissa .binary64 b).toNat = 0 := by rw [hzero]; rfl
      omega
    have hpositive : 0 < (@unpackMantissa .binary64 b).toNat := by omega
    rw [if_pos hzero, dif_neg hne]
    refine ⟨_, _, hpositive, rfl, ?_⟩
    rw [amount, magnitude, if_pos hlow, hmantissa, hexponent, Nat.mod_eq_of_lt hlow,
      Nat.div_eq_of_lt hlow]
    rfl
  · have hne : @unpackExponent .binary64 b ≠ 0#_ := by
      intro hzero
      have hzero : (@unpackExponent .binary64 b).toNat = 0 := by rw [hzero]; rfl
      omega
    have hpositive : 0 < (1#1 ++ @unpackMantissa .binary64 b).toNat := by
      rw [toNat_append_implicit]
      omega
    rw [if_neg hne]
    refine ⟨_, _, hpositive, rfl, ?_⟩
    obtain ⟨k, hk⟩ : ∃ k, b.toNat / 2 ^ 52 = k + 1 := ⟨b.toNat / 2 ^ 52 - 1, by omega⟩
    have hscale : ((b.toNat / 2 ^ 52 : Nat) : ℤ) -
        (Format.binary64.exponentBias + Format.binary64.mantissaBitsWithoutImplicit : ℤ) =
          k + -1074 := by
      rw [hk]
      show ((k + 1 : Nat) : ℤ) - (1023 + 52) = _
      omega
    rw [amount, magnitude, if_neg hlow, hexponent, hscale, zpow_add₀ two_ne_zero, zpow_natCast,
      toNat_append_implicit, hmantissa, hk, Nat.add_sub_cancel, Nat.cast_mul, Nat.cast_pow,
      Nat.cast_ofNat, mul_assoc]

/-! ## Zero -/

theorem amount_zero : amount 0 = 0 := zero_mul _

/-- Zero is the nearest to what is no more than half of the least double. -/
theorem Nearest.zero {q : ℚ} (hx : x.toBits.toNat = 0) (hq : 2 * q ≤ amount 1) : Nearest q x := by
  refine .of_middles hx (Nat.zero_le _) (fun b hb => absurd hb b.not_lt_zero) fun b _ hb => ?_
  have hle := amount_strictMono.monotone (show 1 ≤ b from hb)
  rw [amount_zero, add_zero]
  exact ⟨hq.trans hle, fun _ => rfl⟩

/-! ## Quotients of doubles -/

/-- The quotient of two doubles is the double nearest to the quotient of their numbers. -/
theorem nearest_div {x y : Float} (hx : x.toBits.toNat < infinityBits) (hpos : 0 < y.toBits.toNat)
    (hy : y.toBits.toNat < infinityBits) :
    Nearest (amount x.toBits.toNat / amount y.toBits.toNat) (x / y) := by
  obtain ⟨m₂, e₂, h₂, hunpack₂, hamount₂⟩ := exists_unpack (b := y.toBits.toBitVec) hpos hy
  replace hunpack₂ : y.toModel.unpack = .finite .positive m₂ e₂ h₂ := hunpack₂
  have hquotient : x / y = .ofModel (Float.Model.pack
      (UnpackedFloat.div .binary64 x.toModel.unpack y.toModel.unpack)) := rfl
  rw [hquotient, hunpack₂]
  rcases Nat.eq_zero_or_pos x.toBits.toNat with hzero | hpos'
  · obtain rfl : x = .ofModel (Float.Model.pack (.zero .positive)) := eq_of_toBits hzero
    refine .zero rfl ?_
    rw [hzero, amount_zero, zero_div, mul_zero, ← amount_zero]
    exact (amount_strictMono Nat.one_pos).le
  · obtain ⟨m₁, e₁, h₁, hunpack₁, hamount₁⟩ := exists_unpack (b := x.toBits.toBitVec) hpos' hx
    replace hunpack₁ : x.toModel.unpack = .finite .positive m₁ e₁ h₁ := hunpack₁
    have hnearest := nearest_div_finite e₁ e₂ h₁ h₂
    rw [hamount₁, hamount₂] at hnearest
    rw [hunpack₁]
    exact hnearest

end Script.Decimal
