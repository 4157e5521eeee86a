import KeypadCalc.Proofs.Binary64.Shifting

/-! Arithmetic on unpacked floats. Each operation computes with exact mantissas and rounds once, so
on numbers of units it is the rational operation followed by rounding to the nearest float. -/

namespace KeypadCalc.Binary64

open Float.Model (Format UnpackedFloat totalExponent)
open Float.Model.UnpackedFloat

theorem log2_shiftLeft {m : ℕ} (hm : m ≠ 0) (j : ℕ) : (m <<< j).log2 = m.log2 + j := by
  have hne : m <<< j ≠ 0 := by
    rw [Nat.shiftLeft_eq]
    positivity
  rw [Nat.log2_eq_iff hne, Nat.shiftLeft_eq]
  constructor
  · rw [pow_add]
    exact Nat.mul_le_mul_right _ (Nat.log2_self_le hm)
  · rw [show m.log2 + j + 1 = m.log2 + 1 + j by omega, pow_add]
    exact Nat.mul_lt_mul_of_pos_right Nat.lt_log2_self (by positivity)

/-- Moving digits between the mantissa and the exponent keeps the number. -/
theorem shiftLeft_mul_zpow (m j : ℕ) (e : ℤ) :
    ((m <<< j : ℕ) : ℚ) * 2 ^ (e - j) = m * 2 ^ e := by
  rw [Nat.shiftLeft_eq, zpow_sub₀ (by norm_num), zpow_natCast]
  push_cast
  field_simp

theorem round_eq {s : Sign} {m : ℕ} {e : ℤ} (h : m ≠ 0 ∨ e ≤ -1074) :
    UnpackedFloat.round Format.binary64 s m e = ofCount s (roundUnits (m * 2 ^ (e + 1074))) := by
  have htarget : Format.binary64.targetExponent (totalExponent m e) =
      max (m.log2 + e - 52) (-1074) := by
    simp only [Format.targetExponent, totalExponent, Format.mantissaBits, Format.minExponent]
    omega
  simp only [UnpackedFloat.round, decreaseExponent, htarget]
  generalize hj : (e - max (m.log2 + e - 52) (-1074)).toNat = j
  have hholds : Holds (ExtendedMantissa.ofMantissaAndAccuracy (m <<< j) .exact) (m <<< j : ℕ) := rfl
  rw [roundWithAccuracy_eq hholds]
  · congr 2
    rw [show e - (j : ℤ) + 1074 = e + 1074 - j by omega, shiftLeft_mul_zpow]
  · by_cases hm : m = 0
    · right
      have := h.resolve_left (not_not.2 hm)
      omega
    · rw [log2_shiftLeft hm]
      omega

/-- The unpacked float nearest to a signed number of units, with a sign for zero. -/
def roundSigned (zeroSign : Sign) (z : ℤ) (e : ℤ) : UnpackedFloat :=
  ofCount (if z = 0 then zeroSign else if z < 0 then .negative else .positive)
    (roundUnits (z.natAbs * 2 ^ (e + 1074)))

theorem normalize_eq (z : ℤ) (e : ℤ) (zeroSign : Sign) :
    UnpackedFloat.normalize Format.binary64 z e zeroSign = roundSigned zeroSign z e := by
  unfold UnpackedFloat.normalize roundSigned
  rcases lt_trichotomy z 0 with hneg | rfl | hpos
  · rw [Int.compare_eq_lt.2 hneg, if_neg hneg.ne, if_pos hneg]
    have hne : (-z).toNat ≠ 0 := by omega
    rw [show z.natAbs = (-z).toNat by omega]
    exact round_eq (.inl hne)
  · simp
  · rw [Int.compare_eq_gt.2 hpos, if_neg hpos.ne', if_neg hpos.not_gt]
    have hne : z.toNat ≠ 0 := by omega
    rw [show z.natAbs = z.toNat by omega]
    exact round_eq (.inl hne)

theorem one_eq_zpow : (one : ℚ) = 2 ^ (1074 : ℤ) := by
  delta one
  rw [show (1074 : ℤ) = (1074 : ℕ) from rfl]
  generalize 1074 = n
  rw [Nat.pow_eq, Nat.cast_pow, zpow_natCast, Nat.cast_ofNat]

theorem one_pos : 0 < one := by
  delta one
  generalize 1074 = n
  exact Nat.two_pow_pos n

theorem one_cast_pos : (0 : ℚ) < one := by exact_mod_cast one_pos

/-- A whole number keeps being whole when it is rounded. -/
theorem roundUnits_natCast_mul_one (n : ℕ) : roundUnits ((n : ℚ) * one) = roundUnits n * one := by
  delta one
  generalize 1074 = j
  rw [Nat.pow_eq, Nat.cast_pow, Nat.cast_ofNat]
  exact roundUnits_natCast_mul_two_pow n j

theorem exists_one_eq {j : ℕ} (hj : j ≤ 1074) : ∃ k, j + k = 1074 ∧ one = 2 ^ j * 2 ^ k := by
  refine ⟨1074 - j, by omega, ?_⟩
  rw [← pow_add, show j + (1074 - j) = 1074 by omega]
  delta one
  generalize 1074 = k
  rfl

theorem mul_one_lt_limit {m j : ℕ} (h : m < 2 ^ j) (hj : j ≤ 1024) : m * one < limit := by
  obtain ⟨k, hk, hone⟩ := exists_one_eq (Nat.zero_le 1074)
  rw [hone, pow_zero, one_mul]
  calc
    m * 2 ^ k < 2 ^ j * 2 ^ k := Nat.mul_lt_mul_of_pos_right h (by positivity)
    _ = 2 ^ (j + k) := (pow_add ..).symm
    _ ≤ limit := two_pow_le_limit (by omega)

theorem limit_le_mul_one : limit ≤ 2 ^ 1024 * one := by
  obtain ⟨k, hk, hone⟩ := exists_one_eq (Nat.zero_le 1074)
  rw [hone, pow_zero, one_mul]
  generalize hj : 1024 = j
  rw [← pow_add]
  exact limit_le_two_pow (by omega)

/-! ### Sums -/

/-- The sign of a sum that is zero. -/
def sumSign (s₁ s₂ : Sign) : Sign := if s₁ == s₂ then s₁ else .positive

theorem roundSigned_apply {s zeroSign : Sign} {n : ℕ} (h : Representable n) (hn : n ≠ 0) :
    roundSigned zeroSign (s.apply n) (-1074) = ofCount s n := by
  have hround : roundUnits ((n : ℚ) * 2 ^ (-1074 + 1074 : ℤ)) = n := by
    simpa using h.roundUnits_eq
  cases s
  · have hneg : (Sign.negative.apply n) < 0 := by
      simp only [Sign.apply]
      omega
    rw [roundSigned, if_neg hneg.ne, if_pos hneg]
    simpa [Sign.apply] using congrArg (ofCount .negative) hround
  · have hpos : 0 < Sign.positive.apply n := by
      simp only [Sign.apply]
      omega
    rw [roundSigned, if_neg hpos.ne', if_neg hpos.not_gt]
    simpa [Sign.apply] using congrArg (ofCount .positive) hround

/-- A signed mantissa and the signed number of units that it makes at an exponent. -/
theorem roundSigned_mul_two_pow {s t : Sign} {z : ℤ} {k : ℕ} (hst : z = 0 → s = t) :
    roundSigned s z (k - 1074) = roundSigned t (z * 2 ^ k) (-1074) := by
  have hpos : (0 : ℤ) < 2 ^ k := by positivity
  have habs : ((z * 2 ^ k).natAbs : ℚ) * 2 ^ (-1074 + 1074 : ℤ) =
      z.natAbs * 2 ^ (k - 1074 + 1074 : ℤ) := by
    rw [Int.natAbs_mul, Int.natAbs_pow]
    simp
  unfold roundSigned
  rw [habs]
  congr 1
  by_cases h0 : z = 0
  · simp [h0, hst h0]
  · have hneg : z * 2 ^ k < 0 ↔ z < 0 := by
      rw [mul_neg_iff]
      omega
    simp [h0, hneg]

theorem apply_mul (s : Sign) (a b : ℤ) : s.apply a * b = s.apply (a * b) := by
  cases s <;> simp [Sign.apply]

theorem apply_zero (s : Sign) : s.apply (0 : ℕ) = 0 := by
  cases s <;> rfl

theorem add_ofCount {s₁ s₂ : Sign} {n₁ n₂ : ℕ} (h₁ : Representable n₁) (h₂ : Representable n₂)
    (hlt₁ : n₁ < limit) (hlt₂ : n₂ < limit) :
    add Format.binary64 (ofCount s₁ n₁) (ofCount s₂ n₂) =
      roundSigned (sumSign s₁ s₂) (s₁.apply n₁ + s₂.apply n₂) (-1074) := by
  rcases Nat.eq_zero_or_pos n₁ with rfl | hpos₁
  · rw [apply_zero, zero_add, ofCount_zero]
    rcases Nat.eq_zero_or_pos n₂ with rfl | hpos₂
    · rw [apply_zero, ofCount_zero, add]
      simp only [roundSigned, sumSign, Int.natAbs_zero, Nat.cast_zero, zero_mul, roundUnits_zero,
        ofCount_zero, if_true]
      split <;> rfl
    · rw [roundSigned_apply h₂ hpos₂.ne']
      obtain ⟨m₂, k₂, hc₂, rfl⟩ := h₂.exists_canonical hpos₂ hlt₂
      rw [ofCount_mul hc₂.lt hc₂.normal hc₂.pos]
      rfl
  obtain ⟨m₁, k₁, hc₁, heq₁⟩ := h₁.exists_canonical hpos₁ hlt₁
  rcases Nat.eq_zero_or_pos n₂ with rfl | hpos₂
  · rw [apply_zero, add_zero, roundSigned_apply h₁ hpos₁.ne', heq₁,
      ofCount_mul hc₁.lt hc₁.normal hc₁.pos]
    rfl
  obtain ⟨m₂, k₂, hc₂, heq₂⟩ := h₂.exists_canonical hpos₂ hlt₂
  obtain ⟨k, hk⟩ : ∃ k : ℕ, min (k₁ - 1074 : ℤ) (k₂ - 1074) = k - 1074 :=
    ⟨min k₁ k₂, by omega⟩
  rw [heq₁, heq₂, ofCount_mul hc₁.lt hc₁.normal hc₁.pos, ofCount_mul hc₂.lt hc₂.normal hc₂.pos]
  simp only [add, decreaseExponent, hk]
  obtain ⟨j₁, hj₁⟩ : ∃ j : ℕ, k₁ = j + k := ⟨k₁ - k, by omega⟩
  obtain ⟨j₂, hj₂⟩ : ∃ j : ℕ, k₂ = j + k := ⟨k₂ - k, by omega⟩
  have hsum : (s₁.apply (m₁ <<< j₁ : ℕ) + s₂.apply (m₂ <<< j₂ : ℕ)) * 2 ^ k =
      s₁.apply (m₁ * 2 ^ k₁ : ℕ) + s₂.apply (m₂ * 2 ^ k₂ : ℕ) := by
    rw [add_mul, apply_mul, apply_mul, hj₁, hj₂, Nat.shiftLeft_eq, Nat.shiftLeft_eq]
    push_cast
    rw [pow_add, pow_add, mul_assoc, mul_assoc]
  rw [show ((k₁ : ℤ) - 1074 - (k - 1074)).toNat = j₁ by omega,
    show ((k₂ : ℤ) - 1074 - (k - 1074)).toNat = j₂ by omega, normalize_eq,
    roundSigned_mul_two_pow, hsum]
  -- Two floats of the same sign that are not zero have no sum that is zero.
  intro hzero
  rw [hzero, zero_mul, ← heq₁, ← heq₂] at hsum
  cases s₁ <;> cases s₂ <;> simp only [Sign.apply] at hsum
  · omega
  · rfl
  · rfl
  · omega

theorem sub_ofCount {s₁ s₂ : Sign} {n₁ n₂ : ℕ} :
    sub Format.binary64 (ofCount s₁ n₁) (ofCount s₂ n₂) =
      add Format.binary64 (ofCount s₁ n₁) (ofCount (-s₂) n₂) := by
  have happly : ∀ a : ℤ, (-s₂).apply a = -s₂.apply a := by
    intro a
    cases s₂
    · exact (neg_neg a).symm
    · rfl
  by_cases h₁ : n₁ = 0 <;> by_cases h₂ : n₂ = 0
  · simp [h₁, h₂, sub, add]
  · simp [ofCount, h₁, h₂, sub, add]
  · simp [ofCount, h₁, h₂, sub, add]
  · simp [ofCount, h₁, h₂, sub, add, happly, sub_eq_add_neg]

theorem neg_ofCount (s : Sign) (n : ℕ) : (ofCount s n).neg = ofCount (-s) n := by
  unfold ofCount
  split <;> rfl

theorem abs_ofCount (s : Sign) (n : ℕ) : (ofCount s n).abs = ofCount .positive n := by
  unfold ofCount
  split <;> rfl

/-! ### Products -/

/-- The product of two floats whose mantissas are long enough together. -/
theorem mul_finite {s₁ s₂ : Sign} {m₁ m₂ : ℕ} {e₁ e₂ : ℤ} (h₁ : 0 < m₁) (h₂ : 0 < m₂)
    (hlong : 52 ≤ (m₁ * m₂).log2 ∨ e₁ + e₂ ≤ -1074) :
    mul Format.binary64 (.finite s₁ m₁ e₁ h₁) (.finite s₂ m₂ e₂ h₂) =
      ofCount (s₁ * s₂) (roundUnits (m₁ * m₂ * 2 ^ (e₁ + e₂ + 1074))) := by
  have hholds : Holds (ExtendedMantissa.ofMantissaAndAccuracy (m₁ * m₂) .exact)
      (m₁ * m₂ : ℕ) := rfl
  rw [mul, roundWithAccuracy_eq hholds hlong]
  push_cast
  rfl

theorem mul_ofCount {s₁ s₂ : Sign} {n₁ n₂ : ℕ} (h₁ : Representable n₁) (h₂ : Representable n₂)
    (hlt₁ : n₁ < limit) (hlt₂ : n₂ < limit) :
    mul Format.binary64 (ofCount s₁ n₁) (ofCount s₂ n₂) =
      ofCount (s₁ * s₂) (roundUnits (n₁ * n₂ / one)) := by
  rcases Nat.eq_zero_or_pos n₁ with rfl | hpos₁
  · rw [Nat.cast_zero, zero_mul, zero_div, roundUnits_zero, ofCount_zero, ofCount_zero]
    rcases Nat.eq_zero_or_pos n₂ with rfl | hpos₂
    · rfl
    · obtain ⟨m₂, k₂, hc₂, rfl⟩ := h₂.exists_canonical hpos₂ hlt₂
      rw [ofCount_mul hc₂.lt hc₂.normal hc₂.pos]
      rfl
  obtain ⟨m₁, k₁, hc₁, rfl⟩ := h₁.exists_canonical hpos₁ hlt₁
  rw [ofCount_mul hc₁.lt hc₁.normal hc₁.pos]
  rcases Nat.eq_zero_or_pos n₂ with rfl | hpos₂
  · rw [Nat.cast_zero, mul_zero, zero_div, roundUnits_zero, ofCount_zero, ofCount_zero]
    rfl
  obtain ⟨m₂, k₂, hc₂, rfl⟩ := h₂.exists_canonical hpos₂ hlt₂
  rw [ofCount_mul hc₂.lt hc₂.normal hc₂.pos, mul_finite]
  · congr 2
    rw [show (k₁ - 1074 + (k₂ - 1074) + 1074 : ℤ) = k₁ + k₂ - 1074 by ring,
      zpow_sub₀ (by norm_num), zpow_add₀ (by norm_num), ← one_eq_zpow, zpow_natCast, zpow_natCast]
    push_cast
    ring
  · have hpos : m₁ * m₂ ≠ 0 := (Nat.mul_pos hc₁.pos hc₂.pos).ne'
    rw [Nat.le_log2 hpos]
    -- Away from the smallest exponents one of the two mantissas is long enough on its own.
    rcases hc₁.normal with rfl | hlong₁
    · rcases hc₂.normal with rfl | hlong₂
      · right
        omega
      · exact .inl (hlong₂.trans (Nat.le_mul_of_pos_left _ hc₁.pos))
    · exact .inl (hlong₁.trans (Nat.le_mul_of_pos_right _ hc₂.pos))

/-! ### Quotients -/

/-- The accuracy of a quotient cut off to a whole number. -/
theorem holds_div {n d : ℕ} (hd : 0 < d) :
    Holds (ExtendedMantissa.ofMantissaAndAccuracy (n / d) (accuracyOfFraction (n % d) d))
      (n / d) := by
  have hd' : (0 : ℚ) < d := by exact_mod_cast hd
  have hlt : ((n % d : ℕ) : ℚ) < d := by exact_mod_cast Nat.mod_lt n hd
  have hsplit : (n : ℚ) / d = (n / d : ℕ) + (n % d : ℕ) / d := by
    rw [div_eq_iff hd'.ne', add_mul, div_mul_cancel₀ _ hd'.ne']
    exact_mod_cast (Nat.div_add_mod' n d).symm
  rw [hsplit]
  generalize n / d = q
  generalize hr : n % d = r at hlt
  have hfrac : (r : ℚ) / d < 1 := (div_lt_one hd').2 hlt
  unfold accuracyOfFraction
  split_ifs with h0
  · simp [ExtendedMantissa.ofMantissaAndAccuracy, Holds, h0]
  · have hpos : 0 < (r : ℚ) / d := div_pos (by exact_mod_cast Nat.pos_of_ne_zero h0) hd'
    rcases Nat.lt_trichotomy (2 * r) d with hcmp | hcmp | hcmp
    · rw [Nat.compare_eq_lt.2 hcmp]
      have hhalf : (r : ℚ) / d < 1 / 2 := by
        rw [div_lt_iff₀ hd']
        have : (2 : ℚ) * r < d := by exact_mod_cast hcmp
        linarith
      simp only [ExtendedMantissa.ofMantissaAndAccuracy, Holds]
      constructor <;> linarith
    · rw [Nat.compare_eq_eq.2 hcmp]
      have hhalf : (r : ℚ) / d = 1 / 2 := by
        rw [div_eq_iff hd'.ne']
        have : (2 : ℚ) * r = d := by exact_mod_cast hcmp
        linarith
      simp only [ExtendedMantissa.ofMantissaAndAccuracy, Holds]
      linarith
    · rw [Nat.compare_eq_gt.2 hcmp]
      have hhalf : 1 / 2 < (r : ℚ) / d := by
        rw [lt_div_iff₀ hd']
        have : (d : ℚ) < 2 * r := by exact_mod_cast hcmp
        linarith
      simp only [ExtendedMantissa.ofMantissaAndAccuracy, Holds]
      constructor <;> linarith

theorem le_log2_div {m d : ℕ} (hd : 0 < d) (h : d.log2 + 53 ≤ m.log2) : 52 ≤ (m / d).log2 := by
  have hm : m ≠ 0 := by
    rintro rfl
    rw [Nat.log2_zero] at h
    omega
  have hle : 2 ^ 52 ≤ m / d := by
    rw [Nat.le_div_iff_mul_le hd]
    calc
      2 ^ 52 * d ≤ 2 ^ 52 * 2 ^ (d.log2 + 1) := Nat.mul_le_mul_left _ Nat.lt_log2_self.le
      _ = 2 ^ (d.log2 + 53) := by ring
      _ ≤ 2 ^ m.log2 := Nat.pow_le_pow_right (by decide) h
      _ ≤ m := Nat.log2_self_le hm
  exact (Nat.le_log2 (by omega)).2 hle

theorem div_finite {s₁ s₂ : Sign} {m₁ m₂ : ℕ} {e₁ e₂ : ℤ} (h₁ : 0 < m₁) (h₂ : 0 < m₂) :
    div Format.binary64 (.finite s₁ m₁ e₁ h₁) (.finite s₂ m₂ e₂ h₂) =
      ofCount (s₁ / s₂) (roundUnits (m₁ / m₂ * 2 ^ (e₁ - e₂ + 1074))) := by
  have htarget : Format.binary64.targetExponent (totalExponent m₁ e₁ - totalExponent m₂ e₂) =
      max (m₁.log2 + e₁ - (m₂.log2 + e₂) - 53) (-1074) := by
    simp only [Format.targetExponent, totalExponent, Format.mantissaBits, Format.minExponent]
    omega
  simp only [div, divCore, htarget]
  generalize ht : min (e₁ - e₂) (max (m₁.log2 + e₁ - (m₂.log2 + e₂) - 53) (-1074)) = t
  obtain ⟨j, hj⟩ : ∃ j : ℕ, e₁ - e₂ - t = j := ⟨(e₁ - e₂ - t).toNat, by omega⟩
  rw [hj, Int.toNat_natCast, roundWithAccuracy_eq (holds_div h₂)]
  · congr 2
    have hshift := shiftLeft_mul_zpow m₁ j (e₁ - e₂ + 1074)
    rw [show e₁ - e₂ + 1074 - (j : ℤ) = t + 1074 by omega] at hshift
    rw [div_mul_eq_mul_div, hshift, div_mul_eq_mul_div]
  · by_cases hsmall : t ≤ -1074
    · exact .inr hsmall
    · left
      apply le_log2_div h₂
      rw [log2_shiftLeft h₁.ne']
      omega

theorem div_ofCount {s₁ s₂ : Sign} {n₁ n₂ : ℕ} (h₁ : Representable n₁) (h₂ : Representable n₂)
    (hlt₁ : n₁ < limit) (hlt₂ : n₂ < limit) (hne : n₂ ≠ 0) :
    div Format.binary64 (ofCount s₁ n₁) (ofCount s₂ n₂) =
      ofCount (s₁ / s₂) (roundUnits (n₁ / n₂ * one)) := by
  obtain ⟨m₂, k₂, hc₂, rfl⟩ := h₂.exists_canonical (Nat.pos_of_ne_zero hne) hlt₂
  rw [ofCount_mul hc₂.lt hc₂.normal hc₂.pos]
  rcases Nat.eq_zero_or_pos n₁ with rfl | hpos₁
  · rw [Nat.cast_zero, zero_div, zero_mul, roundUnits_zero, ofCount_zero, ofCount_zero]
    rfl
  obtain ⟨m₁, k₁, hc₁, rfl⟩ := h₁.exists_canonical hpos₁ hlt₁
  rw [ofCount_mul hc₁.lt hc₁.normal hc₁.pos, div_finite]
  congr 2
  rw [show (k₁ - 1074 - (k₂ - 1074) + 1074 : ℤ) = k₁ - k₂ + 1074 by ring,
    zpow_add₀ (by norm_num), zpow_sub₀ (by norm_num), ← one_eq_zpow, zpow_natCast, zpow_natCast]
  have hm₂ := hc₂.pos
  generalize one = o
  push_cast
  field_simp

end KeypadCalc.Binary64
