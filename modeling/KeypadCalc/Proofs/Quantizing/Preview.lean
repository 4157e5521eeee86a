import KeypadCalc.Proofs.Evaluation
import KeypadCalc.Proofs.NumberText.Distinct
import KeypadCalc.Proofs.Quantizing.Repeating

/-! What is shown before a commit and what is shown after it. The preview shows the number that was
found, and a commit shows that number rounded to twelve places, so that on the display the number
is rounded twice. Main statement: the two texts are the same exactly if the two numbers have the
same places on the display; so it is unless the number lies next to a tie. -/

namespace KeypadCalc.Evaluation

open Binary64
open NumberText (display displayCount display_eq_display_iff)

variable {raw : Text} {u v : Float}

/-! ### How far a commit moves a number -/

theorem add_epsilon_relative (hu : u.isFinite = true) (hsum : (u + epsilon).isFinite = true) :
    |toRat (u + epsilon) - toRat u| ≤ |toRat u| / 2 ^ 53 + 9 / 2 ^ 55 := by
  obtain ⟨hfinite, -, -⟩ := epsilon_parts
  have hle := add_relative hu hfinite hsum
  rw [toRat_epsilon] at hle
  have hexact := abs_add_le (toRat u) (1 / 2 ^ 52)
  have hmoved := abs_sub_le (toRat (u + epsilon)) (toRat u + 1 / 2 ^ 52) (toRat u)
  rw [add_sub_cancel_left] at hmoved
  rw [abs_of_pos (by norm_num : (0 : ℚ) < 1 / 2 ^ 52)] at hexact hmoved
  linarith

/-- Adding the distance and scaling up moves a number by little, relative to it. -/
theorem scaled_relative (hu : u.isFinite = true)
    (hx : ((u + epsilon) * roundingScale).isFinite = true) :
    |toRat ((u + epsilon) * roundingScale) / 10 ^ 12 - toRat u| ≤
      5 / 2 ^ 54 * (1 + |toRat u|) := by
  obtain ⟨hscale, -, -⟩ := scale_parts
  have hsum := isFinite_of_mul_scale hx
  have hadded := add_epsilon_relative hu hsum
  have hle := mul_relative hsum hscale hx
  rw [toRat_scale, abs_mul, abs_of_pos (by norm_num : (0 : ℚ) < 10 ^ 12)] at hle
  generalize toRat ((u + epsilon) * roundingScale) = x at *
  generalize toRat (u + epsilon) = s at *
  generalize toRat u = q at *
  have hsize := abs_sub_abs_le_abs_sub s q
  have hscaled : |x / 10 ^ 12 - s| = |x - s * 10 ^ 12| / 10 ^ 12 := by
    rw [← abs_of_pos (by norm_num : (0 : ℚ) < 10 ^ 12), ← abs_div,
      abs_of_pos (by norm_num : (0 : ℚ) < 10 ^ 12), sub_div, mul_div_cancel_right₀ _ (by norm_num)]
  have hmoved := abs_sub_le (x / 10 ^ 12) s q
  have hnonneg := abs_nonneg q
  linarith

/-- A rounded number is a whole number of places, scaled down, that lies close to the number. -/
theorem exists_places (hu : u.isFinite = true) (hfinite : (roundResult u).isFinite = true) :
    ∃ n : ℤ, Equals (halfUp ((u + epsilon) * roundingScale)) n ∧
      |(n : ℚ) / 10 ^ 12 - toRat u| ≤ 1 / (2 * 10 ^ 12) + 5 / 2 ^ 54 * (1 + |toRat u|) := by
  have hx := isFinite_of_halfUp_div_scale hfinite
  have hscaled := scaled_relative hu hx
  obtain ⟨n, hwhole, hcount, hlow, hhigh, -⟩ := halfUp_spec hx
  refine ⟨n, ⟨hwhole, hcount⟩, ?_⟩
  generalize toRat ((u + epsilon) * roundingScale) = x at *
  have hhalf : |(n : ℚ) / 10 ^ 12 - x / 10 ^ 12| ≤ 1 / (2 * 10 ^ 12) := by
    rw [← sub_div, abs_div, abs_of_pos (by norm_num : (0 : ℚ) < 10 ^ 12),
      div_le_iff₀ (by norm_num), abs_le]
    norm_num
    constructor <;> linarith
  have hmoved := abs_sub_le ((n : ℚ) / 10 ^ 12) (x / 10 ^ 12) (toRat u)
  linarith

/-- Rounding moves a number by half of the twelfth place, and by little relative to it. -/
theorem abs_roundResult_sub_le (hu : u.isFinite = true)
    (hfinite : (roundResult u).isFinite = true) :
    |toRat (roundResult u) - toRat u| ≤ 1 / (2 * 10 ^ 12) + (1 + |toRat u|) / 2 ^ 51 := by
  obtain ⟨n, hn, hplaces⟩ := exists_places hu hfinite
  have hquotient : (n : ℚ) / 10 ^ 12 =
      sgn (isNegative (halfUp ((u + epsilon) * roundingScale))) *
        (units (halfUp ((u + epsilon) * roundingScale)) / 10 ^ 12 / one) := by
    rw [← toRat_of_equals hn, toRat_eq, mul_div_assoc, div_right_comm]
  have hle :
      |toRat (roundResult u) - n / 10 ^ 12| ≤ |(n : ℚ) / 10 ^ 12| / 2 ^ 53 + 1 / 2 ^ 100 := by
    rw [roundResult, div_scale hn.1] at hfinite ⊢
    rw [hquotient]
    exact rounded_relative (div_nonneg (Nat.cast_nonneg _) (by norm_num)) hfinite
  generalize toRat (roundResult u) = r at *
  generalize (n : ℚ) / 10 ^ 12 = p at *
  generalize toRat u = q at *
  have hsize := abs_sub_abs_le_abs_sub p q
  have hmoved := abs_sub_le r p q
  have hnonneg := abs_nonneg q
  linarith

/-! ### What a commit keeps of the size -/

theorem count_ofInt {n : ℤ} (hlt : n.natAbs < 2 ^ 53) : count (ofInt n) = n * one := by
  obtain ⟨-, hsign, hunits⟩ := parts_ofUnits (decide (n < 0)) hlt.le
  rw [ofInt, count, hsign, hunits]
  rcases lt_or_ge n 0 with hneg | hnonneg
  · rw [decide_eq_true hneg, if_pos rfl, Nat.cast_mul, ← neg_mul]
    congr 1
    omega
  · rw [decide_eq_false hnonneg.not_gt, if_neg (by decide), Nat.cast_mul]
    congr 1
    omega

theorem units_roundResult_of_zero (hu : u.isFinite = true) (h0 : units u = 0) :
    units (roundResult u) = 0 := by
  have hcount : count u = (0 : ℤ) * one := by
    rw [zero_mul, ← Int.natAbs_eq_zero, natAbs_count, h0]
  rw [roundResult_of_le ⟨hu, hcount⟩ (by decide), ← natAbs_count, count_ofInt (by decide),
    zero_mul, Int.natAbs_zero]

/-- Scaling down is rounding a whole number of units. -/
theorem units_div_scale {h : Float} {n : ℤ} (hh : Equals h n)
    (hfinite : (h / roundingScale).isFinite = true) :
    units (h / roundingScale) = roundUnits ((n.natAbs * one : ℕ) / 10 ^ 12) := by
  rw [div_scale hh.1] at hfinite ⊢
  rw [units_rounded (isFinite_rounded.1 hfinite), hh.units_eq]

/-- What is written out at all is at least a million places. -/
theorem le_natAbs_places {n : ℤ} (h : units 1e-6 ≤ units u)
    (hplaces : |(n : ℚ) / 10 ^ 12 - toRat u| ≤
      1 / (2 * 10 ^ 12) + 5 / 2 ^ 54 * (1 + |toRat u|)) : 10 ^ 6 ≤ n.natAbs := by
  have hone := one_cast_pos
  obtain ⟨-, -, hlow, -⟩ := NumberText.lowest_parts
  have hbound : (10 ^ 6 - 1 / 10) / 10 ^ 12 ≤ |toRat u| := by
    have hle : (((10 ^ 7 - 1) * one : ℕ) : ℚ) ≤ (10 ^ 13 * units u : ℕ) :=
      Nat.cast_le.2 (hlow.trans (Nat.mul_le_mul_left _ h))
    rw [abs_toRat, le_div_iff₀ hone, div_mul_eq_mul_div, div_le_iff₀ (by norm_num)]
    generalize one = w at *
    generalize units u = c at *
    push_cast at hle
    linarith
  have hlarge : (10 ^ 6 - 1 : ℚ) < |(n : ℚ)| := by
    have hscaled : |(n : ℚ) / 10 ^ 12| = |(n : ℚ)| / 10 ^ 12 := by
      rw [abs_div, abs_of_pos (by norm_num : (0 : ℚ) < 10 ^ 12)]
    have hsize := abs_sub_abs_le_abs_sub (toRat u) ((n : ℚ) / 10 ^ 12)
    rw [abs_sub_comm, hscaled] at hsize
    linarith
  have hlt : (10 ^ 6 - 1 : ℤ) < |n| := by exact_mod_cast hlarge
  rw [Int.abs_eq_natAbs] at hlt
  omega

theorem units_million_places : units 1e-6 = roundUnits ((10 ^ 6 * one : ℕ) / 10 ^ 12) := by
  have hdecimal : (1e-6 : Float) = (⟨1, -6⟩ : Decimal).toFloat := rfl
  have hfinite : (1e-6 : Float).isFinite = true := rfl
  rw [hdecimal, Decimal.toFloat_eq_rounded] at hfinite ⊢
  rw [units_rounded (isFinite_rounded.1 hfinite)]
  congr 1
  rw [Decimal.value]
  generalize one = w
  push_cast
  ring

/-- A number at the lower bound of the numbers that are written out stays there or above. -/
theorem units_le_roundResult (hu : u.isFinite = true) (hfinite : (roundResult u).isFinite = true)
    (h : units 1e-6 ≤ units u) : units 1e-6 ≤ units (roundResult u) := by
  obtain ⟨n, hn, hplaces⟩ := exists_places hu hfinite
  have hle := Nat.mul_le_mul_right one (le_natAbs_places h hplaces)
  rw [roundResult] at hfinite ⊢
  rw [units_div_scale hn hfinite, units_million_places]
  refine roundUnits_mono (div_nonneg (Nat.cast_nonneg _) (by norm_num)) ?_
  exact div_le_div_of_nonneg_right (Nat.cast_le.2 hle) (by norm_num)

/-- From `2 ^ 19` on a number stays there. -/
theorem le_units_roundResult (hu : u.isFinite = true) (hfinite : (roundResult u).isFinite = true)
    (h : 2 ^ 19 * one ≤ units u) : 2 ^ 19 * one ≤ units (roundResult u) := by
  have hone := Binary64.one_pos
  have hsum : u + epsilon = u := add_epsilon_of_lt hu (by omega)
  have hx := isFinite_of_halfUp_div_scale hfinite
  rw [hsum] at hx
  obtain ⟨hunits, hwhole⟩ := scaled_of_le hu hx (by omega)
  have hscaled : 10 ^ 12 * 2 ^ 19 * one ≤ units (u * roundingScale) := by
    have hrep := (representable_of_le (n := 10 ^ 12) (by decide)).mul_two_pow 19
    have hle := Nat.mul_le_mul_left (10 ^ 12) h
    rw [← Nat.mul_assoc] at hle
    rw [hunits, ← hrep.roundUnits_eq, ← roundUnits_natCast_mul_one]
    refine roundUnits_mono (mul_nonneg (Nat.cast_nonneg _) one_cast_pos.le) ?_
    rw [mul_comm (units u : ℚ)]
    exact_mod_cast hle
  rw [roundResult, hsum, halfUp_of_isWhole hwhole, div_scale hx] at hfinite ⊢
  rw [units_rounded (isFinite_rounded.1 hfinite), ← roundUnits_two_pow_mul_one]
  refine roundUnits_mono (mul_nonneg (by norm_num) one_cast_pos.le) ?_
  rw [le_div_iff₀ (by norm_num), mul_right_comm, mul_comm _ (10 ^ 12)]
  exact_mod_cast hscaled

/-! ### The two texts -/

theorem display_roundResult_eq_iff (hu : u.isFinite = true)
    (hfinite : (roundResult u).isFinite = true) (hsize : units u = 0 ∨ units 1e-6 ≤ units u) :
    display u = display (roundResult u) ↔ displayCount u = displayCount (roundResult u) :=
  display_eq_display_iff hu hfinite hsize
    (hsize.imp (units_roundResult_of_zero hu) (units_le_roundResult hu hfinite))

/-- The preview of an expression shows the number that was found before it is rounded, and a commit
the rounded one. Unless the number is too small to be written out, both show the same text exactly
if the two numbers have the same places on the display. That is so if the number is away from all
ties by what rounding can move it, and for whole numbers that rounding keeps. Up to `10 ^ 5` there
is at most one unit of the last place between the two texts; from `2 ^ 19` on they are the same only
if rounding keeps the number. -/
theorem preview_eq_display_iff (hu : unrounded raw = .ok (some u)) (hv : evaluate raw = .ok v)
    (hsize : (u == 0.0) = true ∨ 1e-6 ≤ u.abs) :
    preview raw = some (display u) ∧
      (preview raw = some (display v) ↔ displayCount u = displayCount v) ∧
      ((∀ k : ℤ, 1 / (2 * 10 ^ 12) + (1 + |toRat u|) / 2 ^ 51 <
          |toRat u - (2 * k + 1) / (2 * 10 ^ 10)|) → preview raw = some (display v)) ∧
      (∀ n : ℤ, Equals u n → n.natAbs ≤ 36893488 → preview raw = some (display v)) ∧
      (|toRat u| ≤ 10 ^ 5 → (displayCount u - displayCount v).natAbs ≤ 1) ∧
      (2 ^ 19 ≤ |toRat u| → (preview raw = some (display v) ↔ v = u)) := by
  have hfinite := isFinite_of_unrounded hu
  obtain ⟨hnone, -⟩ | ⟨u', hu', hfinite', rfl⟩ := evaluate_eq_ok_iff.1 hv
  · cases hu.symm.trans hnone
  obtain rfl : u = u' := Option.some.inj (Except.ok.inj (hu.symm.trans hu'))
  have hunits : units u = 0 ∨ units 1e-6 ≤ units u := by
    rwa [beq_zero_iff hfinite, le_iff_units_le (by rfl) (isFinite_abs hfinite) (by rfl)
      (isNegative_abs hfinite), units_abs hfinite] at hsize
  have hpreview : preview raw = some (display u) := by rw [preview, hu]
  have hmoved := abs_roundResult_sub_le hfinite hfinite'
  have hiff : preview raw = some (display (roundResult u)) ↔
      displayCount u = displayCount (roundResult u) := by
    rw [hpreview, Option.some.injEq, display_roundResult_eq_iff hfinite hfinite' hunits]
  refine ⟨hpreview, hiff, fun htie => ?_, fun n hn hle => ?_, fun hle => ?_, fun hle => ?_⟩
  · exact hiff.2 (NumberText.displayCount_eq_of_lt_tie hmoved htie).symm
  · have hlt : n.natAbs < 2 ^ 53 := hle.trans_lt (by decide)
    have hkept := (roundResult_eq_ofInt_iff hn hlt).2 (scalesBack_of_le hle)
    rw [hiff, hkept]
    exact NumberText.displayCount_eq_of_count_eq (hn.2.trans (count_ofInt hlt).symm)
  · refine NumberText.natAbs_displayCount_sub_le ?_
    linarith
  · have hlarge : 2 ^ 19 * one ≤ units u := by
      rw [abs_toRat, le_div_iff₀ one_cast_pos] at hle
      exact_mod_cast hle
    rw [hiff]
    refine ⟨fun hsame => ?_, fun hsame => by rw [hsame]⟩
    exact (NumberText.eq_of_displayCount_eq hfinite hfinite' hlarge
      (le_units_roundResult hfinite hfinite' hlarge) hsame).symm

theorem toRat_two_thirds : toRat (-0.6666666666666666) = -6004799503160661 / 2 ^ 53 := by
  have hone := one_cast_pos
  have hcount : count (-0.6666666666666666) * 2 ^ 53 = -6004799503160661 * one := by decide +kernel
  rw [toRat, div_eq_div_iff hone.ne' (by norm_num)]
  exact_mod_cast hcount

theorem preview_eq_display_iff_of_two_thirds :
    unrounded ['−', '2', '÷', '3'] = .ok (some (-0.6666666666666666)) ∧
      evaluate ['−', '2', '÷', '3'] = .ok (-0.666666666667) ∧
      1e-6 ≤ (-0.6666666666666666 : Float).abs ∧
      (∀ k : ℤ, 1 / (2 * 10 ^ 12) + (1 + |toRat (-0.6666666666666666)|) / 2 ^ 51 <
        |toRat (-0.6666666666666666) - (2 * k + 1) / (2 * 10 ^ 10)|) ∧
      preview ['−', '2', '÷', '3'] = some (display (-0.666666666667)) := by
  have hu : unrounded ['−', '2', '÷', '3'] = .ok (some (-0.6666666666666666)) := by decide +kernel
  have hv : evaluate ['−', '2', '÷', '3'] = .ok (-0.666666666667) := by decide +kernel
  have hsize : 1e-6 ≤ (-0.6666666666666666 : Float).abs := by decide +kernel
  have htie : ∀ k : ℤ, 1 / (2 * 10 ^ 12) + (1 + |toRat (-0.6666666666666666)|) / 2 ^ 51 <
      |toRat (-0.6666666666666666) - (2 * k + 1) / (2 * 10 ^ 10)| := by
    intro k
    rw [toRat_two_thirds, abs_of_neg (by norm_num : (-6004799503160661 / 2 ^ 53 : ℚ) < 0)]
    -- the ties on either side
    rcases le_or_gt k (-6666666668) with hk | hk
    · have hle : (k : ℚ) ≤ -6666666668 := by exact_mod_cast hk
      refine lt_abs.2 (.inl ?_)
      linarith
    · have hge : (-6666666667 : ℚ) ≤ k := by exact_mod_cast hk
      refine lt_abs.2 (.inr ?_)
      linarith
  obtain ⟨-, -, haway, -⟩ := preview_eq_display_iff hu hv (.inr hsize)
  exact ⟨hu, hv, hsize, htie, haway htie⟩

/-- A number next below a tie is rounded to the tie and then up. -/
theorem not_forall_preview_eq_display :
    ¬∀ (raw : Text) (u v : Float), unrounded raw = .ok (some u) → evaluate raw = .ok v →
      (u == 0.0) = true ∨ 1e-6 ≤ u.abs → preview raw = some (display v) := by
  intro h
  have hu : unrounded "0.1234567890499".toList = .ok (some 0.1234567890499) := by decide +kernel
  have hv : evaluate "0.1234567890499".toList = .ok 0.12345678905 := by decide +kernel
  have hne : preview "0.1234567890499".toList ≠ some (display 0.12345678905) := by decide +kernel
  exact hne (h _ _ _ hu hv (.inr (by decide +kernel)))

end KeypadCalc.Evaluation
