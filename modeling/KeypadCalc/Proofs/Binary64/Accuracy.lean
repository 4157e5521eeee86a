import KeypadCalc.Proofs.Binary64.Operations

/-! Floats as rational numbers, and how far an operation is from the exact one. -/

namespace KeypadCalc.Binary64

variable {x y v : Float} {b c : Bool} {u : ℚ} {j n : ℕ}

/-- The number that a finite float is. -/
def toRat (v : Float) : ℚ := count v / one

/-- One with the sign of a float. -/
def sgn (negative : Bool) : ℚ := if negative then -1 else 1

@[simp] theorem sgn_false : sgn false = 1 := rfl

@[simp] theorem sgn_true : sgn true = -1 := rfl

@[simp] theorem abs_sgn (b : Bool) : |sgn b| = 1 := by cases b <;> simp [sgn]

theorem sgn_xor (b c : Bool) : sgn (b ^^ c) = sgn b * sgn c := by
  cases b <;> cases c <;> simp [sgn]

theorem toRat_eq (v : Float) : toRat v = sgn (isNegative v) * (units v / one) := by
  unfold toRat count sgn
  split <;> push_cast <;> ring

theorem abs_toRat (v : Float) : |toRat v| = units v / one := by
  rw [toRat_eq, abs_mul, abs_sgn, one_mul, abs_of_nonneg (by positivity)]

theorem toRat_rounded (h : roundUnits u < limit) :
    toRat (rounded b u) = sgn b * (roundUnits u / one) := by
  rw [toRat_eq, isNegative_rounded, units_rounded h]

/-! ### Rounding below a power of two -/

theorem roundUnits_two_pow_mul_one (j : ℕ) : roundUnits (2 ^ j * one) = 2 ^ j * one := by
  have hround := roundUnits_natCast_mul_one (2 ^ j)
  rw [(representable_two_pow j).roundUnits_eq] at hround
  exact_mod_cast hround

theorem roundUnits_lt_limit (hu : 0 ≤ u) (h : u ≤ 2 ^ j * one) (hj : j < 1024) :
    roundUnits u < limit :=
  calc
    roundUnits u ≤ 2 ^ j * one := (roundUnits_mono hu h).trans_eq (roundUnits_two_pow_mul_one j)
    _ < limit := mul_one_lt_limit (Nat.pow_lt_pow_succ (by decide)) (Nat.succ_le_of_lt hj)

/-- Only what is less than one unit is rounded to nothing. -/
theorem lt_one_of_roundUnits_eq_zero (h0 : roundUnits u = 0) : u < 1 := by
  by_contra hge
  have hround := roundUnits_mono (Nat.cast_nonneg 1) (Nat.cast_one.trans_le (not_lt.1 hge))
  rw [h0, (representable_of_le (by decide)).roundUnits_eq] at hround
  exact absurd hround (by decide)

theorem lt_of_roundUnits_lt (h : roundUnits u < 2 ^ j * one) : u < 2 ^ j * one := by
  by_contra hge
  have hone := one_cast_pos
  have hround := roundUnits_mono (mul_nonneg (by positivity) hone.le) (not_lt.1 hge)
  rw [roundUnits_two_pow_mul_one] at hround
  exact absurd h (not_lt.2 hround)

/-- Below `2 ^ j` rounding moves a number by at most `2 ^ j / 2 ^ 54`. -/
theorem abs_roundUnits_sub_le_of_lt (hj : j ≤ 54) (hu : 0 ≤ u) (h : u < 2 ^ j * one) :
    |(roundUnits u : ℚ) - u| ≤ one / 2 ^ (54 - j) := by
  obtain ⟨k, -, hone⟩ := exists_one_eq (show 54 - j ≤ 1074 by omega)
  rw [hone] at h ⊢
  clear hone
  push_cast at h ⊢
  rw [mul_div_cancel_left₀ _ (by positivity)]
  have hspacing : spacing u ≤ k + 1 := by
    rcases two_pow_spacing_le hu with h0 | hle
    · omega
    · have hlt : (2 : ℚ) ^ (spacing u + 52) < 2 ^ (k + 54) := by
        rw [← pow_add, ← pow_add] at h
        refine hle.trans_lt (h.trans_eq ?_)
        congr 1
        omega
      have := (pow_lt_pow_iff_right₀ (by norm_num : (1 : ℚ) < 2)).1 hlt
      omega
  calc
    |(roundUnits u : ℚ) - u| ≤ 2 ^ spacing u / 2 := abs_roundUnits_sub_le hu
    _ ≤ 2 ^ (k + 1) / 2 := by
      have := pow_le_pow_right₀ (by norm_num : (1 : ℚ) ≤ 2) hspacing
      linarith
    _ = 2 ^ k := by ring

/-! ### Operations -/

theorem rounded_accuracy (hj : j ≤ 54) (hu : 0 ≤ u) (h : u < 2 ^ j * one) :
    (rounded b u).isFinite = true ∧
      |toRat (rounded b u) - sgn b * (u / one)| ≤ 1 / 2 ^ (54 - j) := by
  have hone := one_cast_pos
  have hlimit := roundUnits_lt_limit hu h.le (by omega)
  refine ⟨isFinite_rounded.2 hlimit, ?_⟩
  have hle := abs_roundUnits_sub_le_of_lt hj hu h
  rw [toRat_rounded hlimit, ← mul_sub, abs_mul, abs_sgn, one_mul, ← sub_div, abs_div,
    abs_of_pos hone, div_le_iff₀ hone]
  generalize one = w at *
  rw [one_div_mul_eq_div]
  exact hle

theorem isFinite_rounded_of_le (hu : 0 ≤ u) (hle : u ≤ 2 ^ j * one)
    (hj : j < 1024) : (rounded b u).isFinite = true ∧ |toRat (rounded b u)| ≤ 2 ^ j := by
  have hone := one_cast_pos
  have hlimit := roundUnits_lt_limit hu hle hj
  refine ⟨isFinite_rounded.2 hlimit, ?_⟩
  rw [abs_toRat, units_rounded hlimit, div_le_iff₀ hone]
  have hround := roundUnits_mono hu hle
  rw [roundUnits_two_pow_mul_one] at hround
  exact_mod_cast hround

/-- A float that is rounded from less than `2 ^ j` is itself not greater. -/
theorem lt_of_abs_toRat_rounded_lt (hfinite : (rounded b u).isFinite = true)
    (h : |toRat (rounded b u)| < 2 ^ j) : u < 2 ^ j * one := by
  have hone := one_cast_pos
  rw [abs_toRat, units_rounded (isFinite_rounded.1 hfinite), div_lt_iff₀ hone] at h
  exact lt_of_roundUnits_lt (by exact_mod_cast h)

theorem toRat_mul_eq : toRat x * toRat y =
    sgn (isNegative x ^^ isNegative y) * (units x * units y / one / one) := by
  rw [toRat_eq, toRat_eq, sgn_xor]
  ring

theorem toRat_add_eq (s : Bool) : toRat x + toRat y =
    sgn (if count x + count y = 0 then s else decide (count x + count y < 0)) *
      ((count x + count y).natAbs / one) := by
  rw [toRat, toRat, ← add_div, ← Int.cast_add, ← mul_div_assoc]
  generalize count x + count y = z
  refine congrArg (· / (one : ℚ)) ?_
  rcases lt_trichotomy z 0 with hz | rfl | hz
  · simp [hz.ne, hz, sgn, abs_of_neg hz]
  · simp
  · simp [hz.ne', hz.not_gt, sgn, abs_of_pos hz]

section Operations

variable (hx : x.isFinite = true) (hy : y.isFinite = true)

include hx hy

theorem mul_accuracy (hj : j ≤ 54) (h : |toRat x * toRat y| < 2 ^ j) :
    (x * y).isFinite = true ∧ |toRat (x * y) - toRat x * toRat y| ≤ 1 / 2 ^ (54 - j) := by
  have hone := one_cast_pos
  rw [toRat_mul_eq, abs_mul, abs_sgn, one_mul] at h
  rw [mul_eq_rounded hx hy, toRat_mul_eq]
  have hunits : (0 : ℚ) ≤ units x * units y := mul_nonneg (Nat.cast_nonneg _) (Nat.cast_nonneg _)
  refine rounded_accuracy hj (div_nonneg hunits hone.le) ?_
  rw [← div_lt_iff₀ hone]
  exact (le_abs_self _).trans_lt h

theorem add_accuracy (hj : j ≤ 54) (h : |toRat x + toRat y| < 2 ^ j) :
    (x + y).isFinite = true ∧ |toRat (x + y) - (toRat x + toRat y)| ≤ 1 / 2 ^ (54 - j) := by
  have hone := one_cast_pos
  rw [toRat_add_eq (isNegative x && isNegative y), abs_mul, abs_sgn, one_mul] at h
  rw [add_eq_rounded hx hy, toRat_add_eq (isNegative x && isNegative y)]
  refine rounded_accuracy hj (Nat.cast_nonneg _) ?_
  rw [← div_lt_iff₀ hone]
  exact (le_abs_self _).trans_lt h

end Operations

/-! ### Relative to the exact number -/

/-- Rounding moves a number by at most one part in `2 ^ 53`, or by half a unit. -/
theorem abs_roundUnits_sub_le_relative (hu : 0 ≤ u) :
    |(roundUnits u : ℚ) - u| ≤ u / 2 ^ 53 + 1 / 2 := by
  refine (abs_roundUnits_sub_le hu).trans ?_
  rcases two_pow_spacing_le hu with h0 | hle
  · rw [h0, pow_zero, le_add_iff_nonneg_left]
    positivity
  · rw [pow_add] at hle
    linarith

theorem rounded_relative (hu : 0 ≤ u) (hfinite : (rounded b u).isFinite = true) :
    |toRat (rounded b u) - sgn b * (u / one)| ≤ |sgn b * (u / one)| / 2 ^ 53 + 1 / 2 ^ 100 := by
  have hpos := one_cast_pos
  obtain ⟨k, -, hone⟩ := exists_one_eq (show 99 ≤ 1074 by decide)
  have hle := abs_roundUnits_sub_le_relative hu
  have hlarge : (2 : ℚ) ^ 99 ≤ one := by
    rw [hone]
    exact_mod_cast Nat.le_mul_of_pos_right _ (Nat.two_pow_pos k)
  rw [toRat_rounded (isFinite_rounded.1 hfinite), ← mul_sub, abs_mul, abs_mul, abs_sgn, one_mul,
    one_mul, ← sub_div, abs_div, abs_div, abs_of_pos hpos, abs_of_nonneg hu]
  clear hone
  generalize (one : ℚ) = w at *
  rw [div_le_iff₀ hpos, add_mul, div_right_comm, div_mul_cancel₀ _ hpos.ne']
  linarith

theorem add_relative (hx : x.isFinite = true) (hy : y.isFinite = true)
    (hfinite : (x + y).isFinite = true) :
    |toRat (x + y) - (toRat x + toRat y)| ≤ |toRat x + toRat y| / 2 ^ 53 + 1 / 2 ^ 100 := by
  rw [add_eq_rounded hx hy] at hfinite ⊢
  rw [toRat_add_eq (isNegative x && isNegative y)]
  exact rounded_relative (Nat.cast_nonneg _) hfinite

theorem mul_relative (hx : x.isFinite = true) (hy : y.isFinite = true)
    (hfinite : (x * y).isFinite = true) :
    |toRat (x * y) - toRat x * toRat y| ≤ |toRat x * toRat y| / 2 ^ 53 + 1 / 2 ^ 100 := by
  rw [mul_eq_rounded hx hy] at hfinite ⊢
  rw [toRat_mul_eq]
  exact rounded_relative (div_nonneg (mul_nonneg (Nat.cast_nonneg _) (Nat.cast_nonneg _))
    one_cast_pos.le) hfinite

end KeypadCalc.Binary64
