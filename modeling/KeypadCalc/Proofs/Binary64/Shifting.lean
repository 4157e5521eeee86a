import KeypadCalc.Proofs.Binary64.Packing

/-! Rounding an unpacked mantissa. While its digits are shifted out, two bits keep what is needed of
them, so the mantissa that remains is the nearest one to the exact value, and the rounded float is
`ofCount` of the nearest number of units. -/

namespace KeypadCalc.Binary64

open Float.Model (Format UnpackedFloat totalExponent)
open Float.Model.UnpackedFloat

/-- A mantissa with its two bits stands for `x`: the bits place `x` between the mantissa and the
next one. -/
def Holds (em : ExtendedMantissa) (x : ℚ) : Prop :=
  match em.roundBit, em.stickyBit with
  | false, false => x = em.mantissa
  | false, true => (em.mantissa : ℚ) < x ∧ x < em.mantissa + 1 / 2
  | true, false => x = em.mantissa + 1 / 2
  | true, true => (em.mantissa : ℚ) + 1 / 2 < x ∧ x < em.mantissa + 1

theorem Holds.bounds {em : ExtendedMantissa} {x : ℚ} (h : Holds em x) :
    (em.mantissa : ℚ) ≤ x ∧ x < em.mantissa + 1 := by
  obtain ⟨m, r, s⟩ := em
  cases r <;> cases s <;> simp only [Holds] at h ⊢
  · subst h
    constructor <;> linarith
  · constructor <;> linarith
  · subst h
    constructor <;> linarith
  · constructor <;> linarith

theorem Holds.roundedMantissa {em : ExtendedMantissa} {x : ℚ} (h : Holds em x) :
    em.roundedMantissa = nearestEven x := by
  obtain ⟨m, r, s⟩ := em
  cases r <;> cases s <;>
    simp only [Holds, ExtendedMantissa.roundedMantissa, ExtendedMantissa.accuracy,
      Accuracy.roundToNearestEven] at h ⊢
  · rw [h, nearestEven_natCast]
  · have hm : (0 : ℚ) ≤ m := Nat.cast_nonneg m
    exact (nearestEven_eq (by linarith) h.2 (by linarith)).symm
  · rw [h, nearestEven_tie]
  · have hm : (0 : ℚ) ≤ m := Nat.cast_nonneg m
    exact (nearestEven_eq (by push_cast; linarith) (by push_cast; linarith) (by linarith)).symm

theorem Holds.shiftRightOne {em : ExtendedMantissa} {x : ℚ} (h : Holds em x) :
    Holds em.shiftRightOne (x / 2) := by
  obtain ⟨m, r, s⟩ := em
  have hm : (m : ℚ) = 2 * (m / 2 : ℕ) + (m % 2 : ℕ) := by exact_mod_cast (Nat.div_add_mod m 2).symm
  rcases Nat.mod_two_eq_zero_or_one m with hmod | hmod <;> rw [hmod] at hm <;>
    cases r <;> cases s <;>
    simp only [Holds, ExtendedMantissa.shiftRightOne, hmod, Bool.or_false, Bool.or_true,
      bne_self_eq_false, Nat.cast_zero, Nat.cast_one, add_zero,
      show ((1 : ℕ) != 0) = true from rfl] at h hm ⊢
  · linarith
  · constructor <;> linarith
  · constructor <;> linarith
  · constructor <;> linarith
  · linarith
  · constructor <;> linarith
  · constructor <;> linarith
  · constructor <;> linarith

theorem Holds.shiftRight {em : ExtendedMantissa} {x : ℚ} (h : Holds em x) (n : ℕ) :
    Holds (em >>> n) (x / 2 ^ n) := by
  change Holds (n.repeat ExtendedMantissa.shiftRightOne em) _
  induction n with
  | zero => simpa [Nat.repeat] using h
  | succ n ih =>
    rw [Nat.repeat, pow_succ, ← div_div]
    exact ih.shiftRightOne

/-- Shifting a mantissa to the exponent that the format wants for it. -/
theorem shiftToTargetExponent_eq (m : ℕ) (e : ℤ) (a : Accuracy) :
    shiftToTargetExponent Format.binary64 m e a =
      (ExtendedMantissa.ofMantissaAndAccuracy m a >>> (max (m.log2 - 52 : ℤ) (-1074 - e)).toNat,
        e + (max (m.log2 - 52 : ℤ) (-1074 - e)).toNat) := by
  have hshift : Format.binary64.targetExponent (totalExponent m e) - e =
      max (m.log2 - 52 : ℤ) (-1074 - e) := by
    simp only [Format.targetExponent, totalExponent, Format.mantissaBits, Format.minExponent]
    omega
  rw [shiftToTargetExponent, shiftToExponent, hshift]

/-- A rounded mantissa that has at most 53 digits stays as it is. -/
theorem shiftToTargetExponent_of_lt {m : ℕ} (hm : m < 2 ^ 53) (k : ℕ) :
    shiftToTargetExponent Format.binary64 m (k - 1074) .exact =
      (⟨m, false, false⟩, (k : ℤ) - 1074) := by
  have hlog : m.log2 ≤ 52 := by
    by_cases h : m = 0
    · simp [h]
    · have := (Nat.log2_lt h).2 hm
      omega
  have hzero : (max (m.log2 - 52 : ℤ) (-1074 - (k - 1074))).toNat = 0 := by omega
  rw [shiftToTargetExponent_eq, hzero]
  simp [HShiftRight.hShiftRight, Nat.repeat, ExtendedMantissa.ofMantissaAndAccuracy]

/-- A mantissa that became too long by rounding is a power of two, and is shifted once more. -/
theorem shiftToTargetExponent_two_pow (k : ℕ) :
    shiftToTargetExponent Format.binary64 (2 ^ 53) (k - 1074) .exact =
      (⟨2 ^ 52, false, false⟩, ((k + 1 : ℕ) : ℤ) - 1074) := by
  have hone : (max ((2 ^ 53).log2 - 52 : ℤ) (-1074 - (k - 1074))).toNat = 1 := by
    rw [Nat.log2_two_pow]
    omega
  rw [shiftToTargetExponent_eq, hone]
  refine Prod.ext rfl ?_
  push_cast
  ring

/-- What becomes of a mantissa after it has been rounded. -/
theorem finish_eq {s : Sign} {r k : ℕ} (hr : r ≤ 2 ^ 53) (hk : k = 0 ∨ 2 ^ 52 ≤ r) :
    (if h : (shiftToTargetExponent Format.binary64 r (k - 1074) .exact).1.mantissa = 0 then
        UnpackedFloat.zero s
      else .finite s (shiftToTargetExponent Format.binary64 r (k - 1074) .exact).1.mantissa
        (shiftToTargetExponent Format.binary64 r (k - 1074) .exact).2 (Nat.pos_of_ne_zero h)) =
      ofCount s (r * 2 ^ k) := by
  rcases Nat.lt_or_eq_of_le hr with hlt | rfl
  · simp only [shiftToTargetExponent_of_lt hlt]
    by_cases h0 : r = 0
    · simp [h0]
    · rw [dif_neg h0, ofCount_mul hlt hk (Nat.pos_of_ne_zero h0)]
  · have hsucc : 2 ^ 53 * 2 ^ k = 2 ^ 52 * 2 ^ (k + 1) := by ring
    simp only [shiftToTargetExponent_two_pow, hsucc]
    rw [dif_neg (by decide), ofCount_mul (by decide) (.inr le_rfl)]

@[simp] theorem mantissa_ofMantissaAndAccuracy (m : ℕ) (a : Accuracy) :
    (ExtendedMantissa.ofMantissaAndAccuracy m a).mantissa = m := by
  unfold ExtendedMantissa.ofMantissaAndAccuracy
  split <;> rfl

/-- Shifting by `S` digits leaves a mantissa of 53 digits before the point, or one that stands at
the least exponent. -/
theorem shifted_bounds {m S k : ℕ} {e : ℤ} {x : ℚ} (hlo : m ≤ x) (hhi : x ≤ m + 1)
    (hlong : 52 ≤ m.log2 ∨ e ≤ -1074)
    (hS : (max (m.log2 - 52 : ℤ) (-1074 - e)).toNat = S) (hk : (k : ℤ) = e + 1074 + S) :
    x / 2 ^ S ≤ 2 ^ 53 ∧ (k = 0 ∨ 2 ^ 52 ≤ x / 2 ^ S) := by
  constructor
  · have hm : m + 1 ≤ 2 ^ (S + 53) :=
      Nat.le_trans Nat.lt_log2_self (Nat.pow_le_pow_right (by decide) (by omega))
    have hm' : (m : ℚ) + 1 ≤ 2 ^ S * 2 ^ 53 := by rw [← pow_add]; exact_mod_cast hm
    rw [div_le_iff₀ (by positivity)]
    linarith
  · by_cases hk0 : k = 0
    · exact .inl hk0
    · right
      have hm0 : m ≠ 0 := by
        rintro rfl
        rw [Nat.log2_zero] at hlong hS
        omega
      have hm : 2 ^ (S + 52) ≤ m :=
        Nat.le_trans (Nat.pow_le_pow_right (by decide) (by omega)) (Nat.log2_self_le hm0)
      have hm' : (2 : ℚ) ^ S * 2 ^ 52 ≤ m := by rw [← pow_add]; exact_mod_cast hm
      rw [le_div_iff₀ (by positivity)]
      linarith

/-- Rounding a mantissa that stands for `x` at the exponent `e` gives the nearest number of
units. The mantissa has to be long enough for what is lost of `x` not to matter. -/
theorem roundWithAccuracy_eq {s : Sign} {m : ℕ} {e : ℤ} {a : Accuracy} {x : ℚ}
    (hx : Holds (ExtendedMantissa.ofMantissaAndAccuracy m a) x)
    (hlong : 52 ≤ m.log2 ∨ e ≤ -1074) :
    roundWithAccuracy Format.binary64 s m e a =
      ofCount s (roundUnits (x * 2 ^ (e + 1074))) := by
  obtain ⟨hlo, hhi⟩ := hx.bounds
  rw [mantissa_ofMantissaAndAccuracy] at hlo hhi
  have hx0 : 0 ≤ x := (Nat.cast_nonneg m).trans hlo
  generalize hS : (max (m.log2 - 52 : ℤ) (-1074 - e)).toNat = S
  obtain ⟨k, hk⟩ : ∃ k : ℕ, (k : ℤ) = e + 1074 + S := ⟨(e + 1074 + S).toNat, by omega⟩
  have hunits : x * 2 ^ (e + 1074) = x / 2 ^ S * 2 ^ k := by
    rw [show e + 1074 = k - (S : ℤ) by omega, zpow_sub₀ (by norm_num), zpow_natCast, zpow_natCast]
    ring
  -- The mantissa is shifted to the grid of the floats around the number.
  obtain ⟨hle, hge⟩ := shifted_bounds hlo hhi.le hlong hS hk
  have hle' : nearestEven (x / 2 ^ S) ≤ 2 ^ 53 := by
    have := nearestEven_mono hle
    rwa [show (2 : ℚ) ^ 53 = (2 ^ 53 : ℕ) by norm_num, nearestEven_natCast] at this
  have hge' : k = 0 ∨ 2 ^ 52 ≤ nearestEven (x / 2 ^ S) := by
    refine hge.imp id fun h => ?_
    have := nearestEven_mono h
    rwa [show (2 : ℚ) ^ 52 = (2 ^ 52 : ℕ) by norm_num, nearestEven_natCast] at this
  rw [hunits, roundUnits_mul_two_pow hge (by positivity) hle, ← finish_eq hle' hge',
    roundWithAccuracy]
  simp only [shiftToTargetExponent_eq m e a, hS, (hx.shiftRight S).roundedMantissa,
    show e + (S : ℤ) = k - 1074 by omega]

end KeypadCalc.Binary64
