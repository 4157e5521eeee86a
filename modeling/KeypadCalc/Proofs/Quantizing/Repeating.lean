import KeypadCalc.Proofs.Binary64.HalfUp
import KeypadCalc.Proofs.Binary64.Nearest
import KeypadCalc.Proofs.NumberText
import KeypadCalc.Proofs.Quantizing

/-! Rounding to twelve decimal places once more. Up to 4096 the places of a rounded number are found
again, since what the three operations lose is less than half a place. From 4504 on scaling gives
whole numbers only, and scaling up and down comes back to where it began. -/

namespace KeypadCalc.Evaluation

open Binary64

variable {u v h x : Float} {j : ℕ} {n : ℤ}

/-! ### Values that are rounded -/

/-- A whole number of places, divided by the scale. Nothing has no minus sign. -/
def Quantized (v : Float) : Prop :=
  ∃ (h : Float) (n : ℤ), Equals h n ∧ (n = 0 → isNegative h = false) ∧ v = h / roundingScale

theorem isFinite_of_mul_scale (hx : (x * roundingScale).isFinite = true) : x.isFinite = true := by
  by_contra hnot
  rcases cases_of_not_isFinite (eq_false_of_ne_true hnot) with rfl | rfl | rfl <;>
    exact absurd hx (by decide)

theorem isFinite_of_halfUp_div_scale (hx : (halfUp x / roundingScale).isFinite = true) :
    x.isFinite = true := by
  by_contra hnot
  rcases cases_of_not_isFinite (eq_false_of_ne_true hnot) with rfl | rfl | rfl <;>
    exact absurd hx (by decide)

/-- A sum that is no negative zero is scaled to no negative zero. -/
theorem isNegative_scaled (hu : u.isFinite = true)
    (hx : ((u + epsilon) * roundingScale).isFinite = true)
    (h0 : units ((u + epsilon) * roundingScale) = 0) :
    isNegative ((u + epsilon) * roundingScale) = false := by
  have hsum := isFinite_of_mul_scale hx
  obtain ⟨hfinite, hpos, -⟩ := epsilon_parts
  rw [mul_scale hsum] at hx h0 ⊢
  rw [units_rounded (isFinite_rounded.1 hx)] at h0
  rw [isNegative_rounded]
  have hunits : units (u + epsilon) = 0 := by
    have hle := roundUnits_mono (x := units (u + epsilon)) (Nat.cast_nonneg _)
      (le_mul_of_one_le_right (Nat.cast_nonneg _) (by norm_num : (1 : ℚ) ≤ 10 ^ 12))
    rw [h0, roundUnits_units hsum] at hle
    exact Nat.le_zero.1 hle
  rw [add_eq_rounded hu hfinite, hpos, Bool.and_false, roundedInt] at hsum hunits ⊢
  rw [units_rounded (isFinite_rounded.1 hsum)] at hunits
  have hlt := lt_one_of_roundUnits_eq_zero hunits
  rw [← Nat.cast_one, Nat.cast_lt, Nat.lt_one_iff, Int.natAbs_eq_zero] at hlt
  rw [isNegative_rounded, if_pos hlt]

theorem quantized_roundResult (hu : u.isFinite = true) (hfinite : (roundResult u).isFinite = true) :
    Quantized (roundResult u) := by
  have hx := isFinite_of_halfUp_div_scale hfinite
  obtain ⟨n, hfinite', hcount, -, -, hsign⟩ := halfUp_spec hx
  refine ⟨_, n, ⟨hfinite', hcount⟩, fun h0 => ?_, rfl⟩
  by_contra hneg
  obtain ⟨hunits, hneg'⟩ := hsign (by simpa using hneg) h0
  rw [isNegative_scaled hu hx hunits] at hneg'
  cases hneg'

/-! ### Up to 4096 -/

theorem toRat_scale : toRat roundingScale = 10 ^ 12 := by
  obtain ⟨-, hpos, hunits⟩ := scale_parts
  have hone := one_cast_pos
  rw [toRat_eq, hpos, hunits, Nat.cast_mul, mul_div_cancel_right₀ _ hone.ne']
  norm_num [sgn]

theorem toRat_epsilon : toRat epsilon = 1 / 2 ^ 52 := by
  obtain ⟨-, hpos, hunits⟩ := epsilon_parts
  have hone := one_cast_pos
  rw [← hunits, Nat.cast_mul] at hone
  rw [toRat_eq, hpos, sgn_false, one_mul, ← hunits, Nat.cast_mul, Nat.cast_pow, Nat.cast_ofNat]
  rw [div_mul_cancel_left₀ (left_ne_zero_of_mul hone.ne'), one_div]

theorem toRat_of_equals (hh : Equals h n) : toRat h = n := by
  have hone := one_cast_pos
  rw [toRat, hh.2, Int.cast_mul, Int.cast_natCast, mul_div_cancel_right₀ _ hone.ne']

/-- Adding the distance first moves a number little. -/
theorem add_epsilon_accuracy (hv : v.isFinite = true) :
    (v + epsilon).isFinite = true ∧ |toRat (v + epsilon) - toRat v| ≤ 1 / 2 ^ 50 := by
  have hone := one_cast_pos
  obtain ⟨hfinite, -, -⟩ := epsilon_parts
  by_cases hlarge : 4 * one < units v
  · rw [add_epsilon_of_lt hv hlarge, sub_self, abs_zero]
    exact ⟨hv, by norm_num⟩
  · have hsmall : |toRat v| ≤ 4 := by
      rw [abs_toRat, div_le_iff₀ hone]
      exact_mod_cast not_lt.1 hlarge
    obtain ⟨h1, h2⟩ := abs_le.1 hsmall
    have hsum : |toRat v + toRat epsilon| < 2 ^ 3 := by
      rw [toRat_epsilon, abs_lt]
      norm_num
      constructor <;> linarith
    obtain ⟨hfinite', hle⟩ := add_accuracy hv hfinite (by decide) hsum
    obtain ⟨h3, h4⟩ := abs_le.1 hle
    rw [toRat_epsilon] at h3 h4
    norm_num at h3 h4
    refine ⟨hfinite', abs_le.2 ?_⟩
    norm_num
    constructor <;> linarith

theorem div_scale_accuracy (hh : h.isFinite = true) (hfinite : (h / roundingScale).isFinite = true)
    (hj : j ≤ 54) (hlt : |toRat (h / roundingScale)| < 2 ^ j) :
    |toRat (h / roundingScale) - toRat h / 10 ^ 12| ≤ 1 / 2 ^ (54 - j) := by
  rw [div_scale hh] at hfinite hlt ⊢
  have hquotient : toRat h / 10 ^ 12 = sgn (isNegative h) * (units h / 10 ^ 12 / one) := by
    rw [toRat_eq, mul_div_assoc, div_right_comm]
  rw [hquotient]
  exact (rounded_accuracy hj (by positivity) (lt_of_abs_toRat_rounded_lt hfinite hlt)).2

/-- The number of places is found again. -/
theorem abs_scaled_sub_lt (hv : v.isFinite = true) (hlt : |toRat v| < 2 ^ 12)
    (hplaces : |toRat v - n / 10 ^ 12| ≤ 1 / 2 ^ 42) :
    ((v + epsilon) * roundingScale).isFinite = true ∧
      |toRat ((v + epsilon) * roundingScale) - n| < 1 / 2 := by
  obtain ⟨hscale, -, -⟩ := scale_parts
  obtain ⟨hfinite, hsum⟩ := add_epsilon_accuracy hv
  obtain ⟨h1, h2⟩ := abs_lt.1 hlt
  obtain ⟨h3, h4⟩ := abs_le.1 hplaces
  obtain ⟨h5, h6⟩ := abs_le.1 hsum
  have hproduct : |toRat (v + epsilon) * toRat roundingScale| < 2 ^ 52 := by
    rw [toRat_scale, abs_lt]
    norm_num at *
    constructor <;> linarith
  obtain ⟨hfinite', hscaled⟩ := mul_accuracy hfinite hscale (by decide) hproduct
  obtain ⟨h7, h8⟩ := abs_le.1 hscaled
  rw [toRat_scale] at h7 h8
  refine ⟨hfinite', abs_lt.2 ?_⟩
  norm_num at *
  constructor <;> linarith

theorem Quantized.roundResult_eq_of_lt (hv : Quantized v) (hfinite : v.isFinite = true)
    (hlt : |toRat v| < 2 ^ 12) : roundResult v = v := by
  obtain ⟨h, n, hh, hzero, rfl⟩ := hv
  have hplaces := div_scale_accuracy hh.1 hfinite (by decide) hlt
  rw [toRat_of_equals hh] at hplaces
  obtain ⟨hfinite', hnear⟩ := abs_scaled_sub_lt hfinite hlt hplaces
  obtain ⟨m, hm, hcount, hlow, hhigh, -⟩ := halfUp_spec hfinite'
  obtain rfl : m = n := by
    obtain ⟨h1, h2⟩ := abs_lt.1 hnear
    have hlt : (m : ℚ) < n + 1 := by linarith
    have hgt : (n : ℚ) < m + 1 := by linarith
    have hlt' : m < n + 1 := by exact_mod_cast hlt
    have hgt' : n < m + 1 := by exact_mod_cast hgt
    omega
  by_cases h0 : m = 0
  · have hh0 : h = 0.0 := eq_zero_of_units_eq_zero hh.1 (by rw [hh.units_eq, h0]; simp) (hzero h0)
    rw [hh0]
    decide +kernel
  · rw [roundResult, eq_of_count_eq hm hh.1 (hcount.trans hh.2.symm)
      (hh.count_ne_zero h0)]

/-! ### From 4504 on -/

/-- What is scaled has no places any more. -/
theorem scaled_of_le (hfinite : v.isFinite = true) (hx : (v * roundingScale).isFinite = true)
    (hle : 4504 * one ≤ units v) :
    units (v * roundingScale) = roundUnits ((units v : ℚ) * 10 ^ 12) ∧
      isWhole (v * roundingScale) = true := by
  have hone := one_cast_pos
  have hunits : units (v * roundingScale) = roundUnits ((units v : ℚ) * 10 ^ 12) := by
    rw [mul_scale hfinite] at hx ⊢
    exact units_rounded (isFinite_rounded.1 hx)
  have hlarge : 2 ^ 52 * one ≤ units (v * roundingScale) := by
    have hle' : (4504 : ℚ) * one ≤ units v := by exact_mod_cast hle
    rw [hunits, ← roundUnits_two_pow_mul_one]
    refine roundUnits_mono (mul_nonneg (by norm_num) hone.le) ?_
    linarith
  refine ⟨hunits, ?_⟩
  rw [isWhole, hx, Nat.mod_eq_zero_of_dvd ((representable_units hx).one_dvd hlarge)]
  rfl

theorem scaled_spec (hfinite : v.isFinite = true) (hle : 4504 * one ≤ units v)
    (hlt : units v < 2 ^ 70 * one) :
    (v * roundingScale).isFinite = true ∧
      units (v * roundingScale) = roundUnits ((units v : ℚ) * 10 ^ 12) ∧
      isWhole (v * roundingScale) = true := by
  have hscaled : roundUnits ((units v : ℚ) * 10 ^ 12) < limit := by
    have hlt' : (units v : ℚ) < 2 ^ 70 * one := by exact_mod_cast hlt
    refine roundUnits_lt_limit (j := 110) (mul_nonneg (Nat.cast_nonneg _) (by norm_num)) ?_
      (by decide)
    have hone := one_cast_pos
    linarith
  have hx : (v * roundingScale).isFinite = true := by
    rw [mul_scale hfinite]
    exact isFinite_rounded.2 hscaled
  exact ⟨hx, scaled_of_le hfinite hx hle⟩

theorem Quantized.roundResult_eq_of_le (hv : Quantized v) (hfinite : v.isFinite = true)
    (hle : 4504 * one ≤ units v) (hlt : units v < 2 ^ 70 * one) : roundResult v = v := by
  obtain ⟨h, n, hh, -, hquotient⟩ := hv
  have hone := Binary64.one_pos
  obtain ⟨hx, hxunits, hwhole⟩ := scaled_spec hfinite hle hlt
  have hunits : units v = roundUnits (units h / 10 ^ 12) := by
    rw [hquotient, div_scale hh.1] at hfinite ⊢
    exact units_rounded (isFinite_rounded.1 hfinite)
  have hback := roundUnits_div_mul_div (representable_units hh.1)
    (representable_of_le (n := 10 ^ 12) (by decide)) (by decide)
  rw [Nat.cast_pow, Nat.cast_ofNat, ← hunits] at hback
  rw [roundResult, add_epsilon_of_lt hfinite (by omega), halfUp_of_isWhole hwhole, div_scale hx,
    hxunits, mul_scale hfinite, isNegative_rounded]
  conv_rhs => rw [Binary64.eq_rounded hfinite]
  refine rounded_congr ?_
  rw [roundUnits_units hfinite]
  exact hback

/-! ### Both ranges -/

open NumberText (Positional positional_iff)

theorem bound_parts : units (4096.0 : Float) = 4096 * one ∧ units (4504.0 : Float) = 4504 * one ∧
    units (1e21 : Float) < 2 ^ 70 * one := by
  decide +kernel

theorem roundResult_at_4096 :
    ∀ b : Bool, roundResult (ofUnits b (4096 * one)) = ofUnits b (4096 * one) := by
  decide +kernel

theorem units_lt_of_positional (h : Positional v) : units v < 2 ^ 70 * one := by
  obtain ⟨-, -, hmax⟩ := bound_parts
  have hone := Binary64.one_pos
  rcases (positional_iff h.isFinite).1 h with h0 | ⟨-, hlt⟩
  · rw [h0]
    omega
  · exact hlt.trans hmax

/-- A rounded number is not changed by rounding it again, unless it lies between 4096 and 4504. -/
theorem Quantized.roundResult_eq (hv : Quantized v) (hpositional : Positional v)
    (h : v.abs ≤ 4096.0 ∨ 4504.0 ≤ v.abs) : roundResult v = v := by
  obtain ⟨hlow, hhigh, -⟩ := bound_parts
  have hfinite := hpositional.isFinite
  have habs := isFinite_abs hfinite
  have hsign := isNegative_abs hfinite
  rcases h with h | h
  · rw [le_iff_units_le habs (by rfl) hsign (by rfl), units_abs hfinite, hlow] at h
    rcases Nat.lt_or_eq_of_le h with hlt | heq
    · refine hv.roundResult_eq_of_lt hfinite ?_
      rw [abs_toRat, div_lt_iff₀ one_cast_pos]
      refine (Nat.cast_lt.2 hlt).trans_eq ?_
      rw [Nat.cast_mul, show ((4096 : ℕ) : ℚ) = 2 ^ 12 by norm_num]
    · have hv' : v = ofUnits (isNegative v) (4096 * one) := by
        conv_lhs => rw [Binary64.eq_rounded hfinite, heq]
        rw [ofUnits_eq_rounded]
      rw [hv', roundResult_at_4096]
  · rw [le_iff_units_le (by rfl) habs (by rfl) hsign, units_abs hfinite, hhigh] at h
    exact hv.roundResult_eq_of_le hfinite h (units_lt_of_positional hpositional)

theorem Quantized.isNegative_eq_false (hv : Quantized v) (hfinite : v.isFinite = true)
    (h0 : units v = 0) : isNegative v = false := by
  obtain ⟨h, n, hh, hzero, rfl⟩ := hv
  rw [div_scale hh.1] at hfinite h0 ⊢
  rw [units_rounded (isFinite_rounded.1 hfinite)] at h0
  rw [isNegative_rounded]
  refine hzero (by_contra fun hn => ?_)
  -- one place is more than one unit
  obtain ⟨k, -, hone⟩ := exists_one_eq (show 40 ≤ 1074 by decide)
  have hlarge : 10 ^ 12 ≤ units h := by
    rw [hh.units_eq, hone]
    calc
      10 ^ 12 ≤ 1 * (2 ^ 40 * 1) := by decide
      _ ≤ n.natAbs * (2 ^ 40 * 2 ^ k) :=
        Nat.mul_le_mul (Int.natAbs_pos.2 hn) (Nat.mul_le_mul_left _ Nat.one_le_two_pow)
  have hless := lt_one_of_roundUnits_eq_zero h0
  rw [div_lt_one (by norm_num)] at hless
  have hless' : units h < 10 ^ 12 := by exact_mod_cast hless
  omega

theorem isFinite_roundResult_of_positional (h : Positional v) :
    (roundResult v).isFinite = true := by
  have hone := one_cast_pos
  have hlt : (units v : ℚ) < 2 ^ 70 * one := by exact_mod_cast units_lt_of_positional h
  have hv : |toRat v| < 2 ^ 70 := by rwa [abs_toRat, div_lt_iff₀ hone]
  obtain ⟨hsum, hnear⟩ := add_epsilon_accuracy h.isFinite
  have hsum' : (units (v + epsilon) : ℚ) ≤ 2 ^ 71 * one := by
    rw [← div_le_iff₀ hone, ← abs_toRat]
    obtain ⟨h1, h2⟩ := abs_lt.1 hv
    obtain ⟨h3, h4⟩ := abs_le.1 hnear
    rw [abs_le]
    norm_num at h1 h2 h3 h4 ⊢
    constructor <;> linarith
  obtain ⟨hx, hxle⟩ := isFinite_rounded_of_le (b := isNegative (v + epsilon)) (j := 111)
    (mul_nonneg (Nat.cast_nonneg (units (v + epsilon))) (by norm_num : (0 : ℚ) ≤ 10 ^ 12))
    (by linarith) (by decide)
  rw [← mul_scale hsum] at hx hxle
  obtain ⟨n, hfinite, hcount, hlow, hhigh, -⟩ := halfUp_spec hx
  have hwhole : (units (halfUp ((v + epsilon) * roundingScale)) : ℚ) ≤ 2 ^ 112 * one := by
    obtain ⟨h1, h2⟩ := abs_le.1 hxle
    rw [← div_le_iff₀ hone, ← abs_toRat, toRat_of_equals ⟨hfinite, hcount⟩, abs_le]
    constructor <;> linarith
  rw [roundResult, div_scale hfinite]
  refine (isFinite_rounded_of_le (j := 112) (div_nonneg (Nat.cast_nonneg _) (by norm_num)) ?_
    (by decide)).1
  have hpos : (0 : ℚ) ≤ units (halfUp ((v + epsilon) * roundingScale)) := Nat.cast_nonneg _
  linarith [div_le_self hpos (by norm_num : (1 : ℚ) ≤ 10 ^ 12)]

end KeypadCalc.Evaluation
