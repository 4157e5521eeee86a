import KeypadCalc.Evaluation
import KeypadCalc.Proofs.Binary64.Operations

/-! Rounding a whole number to twelve decimal places. The number is scaled by `10 ^ 12`, which is
exact up to about 36.9 million and rounded above, and then scaled back. It comes back if what the
scaling lost is small enough, and otherwise comes back as a neighbour of the number. -/

namespace KeypadCalc.Binary64

/-- The float of a whole number that is not too large; zero has no minus sign. -/
def ofInt (n : ℤ) : Float := ofUnits (n < 0) (n.natAbs * one)

end KeypadCalc.Binary64

namespace KeypadCalc.Evaluation

open Binary64

variable {n : ℕ} {v : Float}

/-! ### Scaling up and down -/

/-- What is lost of `n · 10 ^ 12` in a float is less than half of the distance, scaled likewise,
between `n` and the next float. -/
def ScalesBack (n : ℕ) : Prop :=
  ((roundUnits (n * 10 ^ 12 : ℕ) : ℤ) - n * 10 ^ 12).natAbs * 2 ^ (53 - n.log2) < 10 ^ 12

theorem mul_le_roundUnits_scaled (hn : n ≠ 0) :
    2 ^ n.log2 * 10 ^ 12 ≤ roundUnits (n * 10 ^ 12 : ℕ) ∧
      roundUnits (n * 10 ^ 12 : ℕ) ≤ 2 ^ (n.log2 + 1) * 10 ^ 12 := by
  have hrep : ∀ j, Representable (2 ^ j * 10 ^ 12) := fun j => by
    rw [mul_comm]
    exact (representable_of_le (by decide)).mul_two_pow j
  have hle := Nat.mul_le_mul_right (10 ^ 12) (Nat.log2_self_le hn)
  have hge := Nat.mul_le_mul_right (10 ^ 12) (Nat.lt_log2_self (n := n)).le
  constructor
  · rw [← (hrep n.log2).roundUnits_eq]
    exact roundUnits_mono (Nat.cast_nonneg _) (by exact_mod_cast hle)
  · rw [← (hrep (n.log2 + 1)).roundUnits_eq]
    exact roundUnits_mono (Nat.cast_nonneg _) (by exact_mod_cast hge)

theorem log2_le_52 (hlt : n < 2 ^ 53) : n.log2 ≤ 52 := by
  by_cases h : n = 0
  · simp [h]
  · have := (Nat.log2_lt h).2 hlt
    omega

/-- What is lost of `n · 10 ^ 12` is never exactly the bound: it is a multiple of `2 ^ 12`, and the
bound has an odd factor left after that. -/
theorem lost_ne (hlt : n < 2 ^ 53) :
    ((roundUnits (n * 10 ^ 12 : ℕ) : ℤ) - n * 10 ^ 12).natAbs * 2 ^ (53 - n.log2) ≠ 10 ^ 12 := by
  have hlog := log2_le_52 hlt
  have hscale : roundUnits (n * 10 ^ 12 : ℕ) = roundUnits (n * 5 ^ 12 : ℕ) * 2 ^ 12 := by
    rw [← roundUnits_natCast_mul_two_pow]
    congr 1
    push_cast
    ring
  obtain ⟨j, hj⟩ : ∃ j, 53 - n.log2 = j + 1 := ⟨52 - n.log2, by omega⟩
  rw [hscale, hj]
  have hdiff : ((roundUnits (n * 5 ^ 12 : ℕ) * 2 ^ 12 : ℕ) : ℤ) - n * 10 ^ 12 =
      ((roundUnits (n * 5 ^ 12 : ℕ) : ℤ) - n * 5 ^ 12) * 2 ^ 12 := by
    push_cast
    ring
  rw [hdiff, Int.natAbs_mul]
  generalize ((roundUnits (n * 5 ^ 12 : ℕ) : ℤ) - n * 5 ^ 12).natAbs = d
  rw [pow_succ 2 j, show ((2 : ℤ) ^ 12).natAbs = 4096 by decide]
  rw [show d * 4096 * (2 ^ j * 2) = d * 2 ^ j * 8192 by ring]
  omega

/-- What scaling has lost, after scaling down and in halves of a place. -/
theorem abs_scaled_sub (r n j : ℕ) : |(r : ℚ) * 2 ^ j / 10 ^ 12 - (n * 2 ^ j : ℕ)| =
    ((((r : ℤ) - n * 10 ^ 12).natAbs * 2 ^ (j + 1) : ℕ) : ℚ) / (2 * 10 ^ 12) := by
  have hdiff : (r : ℚ) * 2 ^ j / 10 ^ 12 - (n * 2 ^ j : ℕ) =
      ((r : ℤ) - n * 10 ^ 12 : ℤ) * (2 ^ j / 10 ^ 12) := by
    push_cast
    ring
  rw [hdiff, abs_mul, abs_of_pos (by positivity : (0 : ℚ) < 2 ^ j / 10 ^ 12), ← Int.cast_abs,
    Int.abs_eq_natAbs, pow_succ, Int.cast_natCast]
  generalize ((r : ℤ) - n * 10 ^ 12).natAbs = d
  push_cast
  ring

/-- Scaling down comes back to the number if, and only if, not too much was lost. -/
theorem roundUnits_scaled_div (hn : n ≠ 0) (hlt : n < 2 ^ 53) :
    roundUnits ((roundUnits (n * 10 ^ 12 : ℕ) : ℚ) * one / 10 ^ 12) = n * one ↔
      ScalesBack n := by
  have hlog := log2_le_52 hlt
  obtain ⟨hlo, hhi⟩ := mul_le_roundUnits_scaled hn
  have hne := lost_ne hlt
  unfold ScalesBack
  generalize roundUnits (n * 10 ^ 12 : ℕ) = r at *
  generalize n.log2 = l at *
  obtain ⟨j, hj⟩ : ∃ j, l + j = 52 := ⟨52 - l, by omega⟩
  obtain ⟨k, -, hone⟩ := exists_one_eq (show j ≤ 1074 by omega)
  rw [hone]
  clear hone
  have hj0 : (0 : ℚ) < 2 ^ j := by positivity
  have hlo' : (2 : ℚ) ^ l * 10 ^ 12 ≤ r := by exact_mod_cast hlo
  have hhi' : (r : ℚ) ≤ 2 ^ (l + 1) * 10 ^ 12 := by exact_mod_cast hhi
  have hunits : (r : ℚ) * (2 ^ j * 2 ^ k : ℕ) / 10 ^ 12 = r * 2 ^ j / 10 ^ 12 * 2 ^ k := by
    push_cast
    ring
  have hround : roundUnits ((r : ℚ) * (2 ^ j * 2 ^ k : ℕ) / 10 ^ 12) =
      nearestEven (r * 2 ^ j / 10 ^ 12) * 2 ^ k := by
    rw [hunits, roundUnits_mul_two_pow (.inr ?_) (by positivity) ?_]
    · rw [← hj, pow_add, le_div_iff₀ (by norm_num)]
      linarith [mul_le_mul_of_nonneg_right hlo' hj0.le]
    · rw [show 53 = l + 1 + j by omega, pow_add, div_le_iff₀ (by norm_num)]
      linarith [mul_le_mul_of_nonneg_right hhi' hj0.le]
  have hlost := abs_scaled_sub r n j
  rw [show j + 1 = 53 - l by omega] at hlost
  rw [hround, ← mul_assoc, Nat.mul_left_inj (by positivity), nearestEven_eq_iff, hlost]
  · generalize ((r : ℤ) - n * 10 ^ 12).natAbs * 2 ^ (53 - l) = d
    rw [div_lt_div_iff₀ (by norm_num) (by norm_num)]
    norm_cast
    omega
  · positivity
  · rw [hlost]
    generalize ((r : ℤ) - n * 10 ^ 12).natAbs * 2 ^ (53 - l) = d at hne
    rw [ne_eq, div_eq_div_iff (by norm_num) (by norm_num)]
    norm_cast
    omega

/-- Up to the number where `n · 5 ^ 12` needs more than 53 binary digits nothing is lost. -/
theorem scalesBack_of_le (h : n ≤ 36893488) : ScalesBack n := by
  have hrep : Representable (n * 10 ^ 12) := by
    rw [show n * 10 ^ 12 = n * 5 ^ 12 * 2 ^ 12 by ring]
    exact (representable_of_le (by omega)).mul_two_pow 12
  rw [ScalesBack, hrep.roundUnits_eq]
  simp

/-! ### Whole floats -/

/-- The float is the whole number `n`. -/
def Equals (v : Float) (n : ℤ) : Prop := v.isFinite = true ∧ count v = n * one

instance (v : Float) (n : ℤ) : Decidable (Equals v n) := inferInstanceAs (Decidable (_ ∧ _))

theorem Equals.units_eq {n : ℤ} (h : Equals v n) : units v = n.natAbs * one := by
  rw [← natAbs_count, h.2, Int.natAbs_mul, Int.natAbs_natCast]

theorem Equals.count_ne_zero {n : ℤ} (h : Equals v n) (hn : n ≠ 0) : count v ≠ 0 := by
  rw [h.2]
  exact mul_ne_zero hn (by exact_mod_cast Binary64.one_pos.ne')

theorem Equals.isNegative_eq {n : ℤ} (h : Equals v n) (hn : n ≠ 0) :
    isNegative v = decide (n < 0) := by
  have hone : (0 : ℤ) < one := by exact_mod_cast Binary64.one_pos
  rw [isNegative_eq_of_count_ne_zero (h.count_ne_zero hn), h.2, decide_eq_decide, mul_neg_iff]
  omega

theorem Equals.eq_rounded {n : ℤ} (h : Equals v n) :
    v = rounded (isNegative v) ((n.natAbs : ℚ) * one) := by
  have := Binary64.eq_rounded h.1
  rw [h.units_eq] at this
  exact_mod_cast this

theorem ofInt_eq_rounded (n : ℤ) : ofInt n = rounded (n < 0) ((n.natAbs : ℚ) * one) := by
  rw [ofInt, ofUnits_eq_rounded]
  push_cast
  rfl

/-! ### Rounding a whole float -/

theorem scale_parts : roundingScale.isFinite = true ∧ isNegative roundingScale = false ∧
    units roundingScale = 10 ^ 12 * one := by
  decide +kernel

theorem epsilon_parts : epsilon.isFinite = true ∧ isNegative epsilon = false ∧
    units epsilon * 2 ^ 52 = one := by
  decide +kernel

theorem mul_scale (hv : v.isFinite = true) :
    v * roundingScale = rounded (isNegative v) ((units v : ℚ) * 10 ^ 12) := by
  obtain ⟨hfin, hpos, hunits⟩ := scale_parts
  have hone := one_cast_pos
  rw [mul_eq_rounded hv hfin, hpos, Bool.xor_false, hunits]
  refine congrArg (rounded _) ?_
  generalize one = w at hone
  push_cast
  field_simp
  norm_num

theorem div_scale (hv : v.isFinite = true) :
    v / roundingScale = rounded (isNegative v) ((units v : ℚ) / 10 ^ 12) := by
  obtain ⟨hfin, hpos, hunits⟩ := scale_parts
  have hone := one_cast_pos
  rw [div_eq_rounded hv hfin (by decide +kernel), hpos, Bool.xor_false, hunits]
  refine congrArg (rounded _) ?_
  generalize one = w at hone
  push_cast
  field_simp
  norm_num

/-- The distance that is added first is too small to count beside a number above four. -/
theorem add_epsilon_of_lt (hv : v.isFinite = true) (hlarge : 4 * one < units v) :
    v + epsilon = v := by
  obtain ⟨hfin, hpos, hunits⟩ := epsilon_parts
  have hrep := representable_units hv
  have hcount : count epsilon = units epsilon := by
    rw [count, hpos]
    rfl
  rw [add_eq_rounded hv hfin, hcount, roundedInt]
  conv_rhs => rw [Binary64.eq_rounded hv]
  unfold count
  generalize isNegative v = b
  generalize units v = p at *
  generalize units epsilon = e at *
  have hz : (if b then -(p : ℤ) else p) + e ≠ 0 ∧
      decide ((if b then -(p : ℤ) else p) + e < 0) = b := by
    cases b <;> simp <;> omega
  have hnear : |((((if b then -(p : ℤ) else p) + e).natAbs : ℕ) : ℚ) - p| < p / 2 ^ 54 := by
    have hle : (((if b then -(p : ℤ) else p) + e).natAbs : ℤ) - p ≤ e ∧
        -(e : ℤ) ≤ (((if b then -(p : ℤ) else p) + e).natAbs : ℤ) - p := by
      split <;> omega
    have hlt : (e : ℚ) < p / 2 ^ 54 := by
      rw [lt_div_iff₀ (by positivity)]
      have : e * 2 ^ 54 < p := by omega
      exact_mod_cast this
    generalize ((if b then -(p : ℤ) else p) + e).natAbs = q at hle
    have h1 : (q : ℚ) - p ≤ e := by exact_mod_cast hle.1
    have h2 : -(e : ℚ) ≤ (q : ℚ) - p := by exact_mod_cast hle.2
    rw [abs_lt]
    constructor <;> linarith
  rw [if_neg hz.1, hz.2]
  refine rounded_congr ?_
  rw [hrep.roundUnits_eq_of_abs_sub_lt hnear, hrep.roundUnits_eq]

theorem add_epsilon {n : ℤ} (h : Equals v n) (hn : 4 < n.natAbs) : v + epsilon = v := by
  refine add_epsilon_of_lt h.1 ?_
  rw [h.units_eq]
  exact (Nat.mul_lt_mul_right Binary64.one_pos).2 hn

/-- Large whole numbers are scaled up and down only. -/
theorem roundResult_eq {n : ℤ} (h : Equals v n) (hn : 4 < n.natAbs) (hlt : n.natAbs < 2 ^ 53) :
    roundResult v =
      rounded (n < 0) ((roundUnits (n.natAbs * 10 ^ 12 : ℕ) : ℚ) * one / 10 ^ 12) := by
  have hne : n.natAbs ≠ 0 := by omega
  have hmul : v * roundingScale = rounded (n < 0) (((n.natAbs * 10 ^ 12 : ℕ) : ℚ) * one) := by
    rw [mul_scale h.1, h.isNegative_eq (by omega), h.units_eq]
    rw [Nat.cast_mul, Nat.cast_mul, Nat.cast_pow, Nat.cast_ofNat, mul_right_comm]
  have hround := roundUnits_natCast_mul_one (n.natAbs * 10 ^ 12)
  have hlimit : roundUnits (n.natAbs * 10 ^ 12 : ℕ) * one < limit := by
    refine mul_one_lt_limit (j := 94) ?_ (by decide)
    have hlog := log2_le_52 hlt
    calc
      roundUnits (n.natAbs * 10 ^ 12 : ℕ) ≤ 2 ^ (n.natAbs.log2 + 1) * 10 ^ 12 :=
        (mul_le_roundUnits_scaled hne).2
      _ ≤ 2 ^ 53 * 10 ^ 12 :=
        Nat.mul_le_mul_right _ (Nat.pow_le_pow_right (by decide) (by omega))
      _ < 2 ^ 94 := by decide
  have hscaled : (v * roundingScale).isFinite = true := by
    rw [hmul, isFinite_rounded, hround]
    exact hlimit
  have hscaledUnits : units (v * roundingScale) = roundUnits (n.natAbs * 10 ^ 12 : ℕ) * one := by
    rw [hmul, units_rounded (hround.trans_lt hlimit), hround]
  have hwhole : isWhole (v * roundingScale) = true := by
    rw [isWhole, hscaled, hscaledUnits, Nat.mul_mod_left]
    rfl
  rw [roundResult, add_epsilon h hn, halfUp_of_isWhole hwhole, div_scale hscaled, hscaledUnits,
    hmul, isNegative_rounded, Nat.cast_mul]

theorem isFinite_roundResult_of_lt {n : ℤ} (h : Equals v n) (hn : 4 < n.natAbs)
    (hlt : n.natAbs < 2 ^ 53) : (roundResult v).isFinite = true := by
  have hlog := log2_le_52 hlt
  have hhi := (mul_le_roundUnits_scaled (show n.natAbs ≠ 0 by omega)).2
  have hpow : 2 ^ (n.natAbs.log2 + 1) ≤ 2 ^ 53 := Nat.pow_le_pow_right (by decide) (by omega)
  rw [roundResult_eq h hn hlt, isFinite_rounded]
  generalize roundUnits (n.natAbs * 10 ^ 12 : ℕ) = r at hhi
  have hr : (r : ℚ) ≤ (2 ^ 53 * 10 ^ 12 : ℕ) := by
    exact_mod_cast hhi.trans (Nat.mul_le_mul_right _ hpow)
  have hone := one_cast_pos
  have hle : (r : ℚ) * one / 10 ^ 12 ≤ (2 ^ 53 : ℕ) * one := by
    generalize one = w at hone
    rw [div_le_iff₀ (by positivity)]
    push_cast at hr ⊢
    nlinarith
  have hpos : (0 : ℚ) ≤ (r : ℚ) * one / 10 ^ 12 := by
    generalize one = w at hone
    positivity
  calc
    roundUnits ((r : ℚ) * one / 10 ^ 12) ≤ roundUnits ((2 ^ 53 : ℕ) * one) :=
      roundUnits_mono hpos hle
    _ = 2 ^ 53 * one := by
      rw [roundUnits_natCast_mul_one, (representable_of_le le_rfl).roundUnits_eq]
    _ < limit := mul_one_lt_limit (j := 54) (by decide) (by decide)

/-- The whole numbers next to zero are evaluated one by one. -/
theorem roundResult_small : ∀ n ∈ ([-4, -3, -2, -1, 0, 1, 2, 3, 4] : List ℤ), ∀ b : Bool,
    (n ≠ 0 → b = decide (n < 0)) → roundResult (ofUnits b (n.natAbs * one)) = ofInt n := by
  decide +kernel

theorem isFinite_ofInt {n : ℤ} (hlt : n.natAbs < 2 ^ 53) : (ofInt n).isFinite = true := by
  rw [ofInt_eq_rounded, isFinite_rounded, roundUnits_natCast_mul_one,
    (representable_of_le hlt.le).roundUnits_eq]
  exact mul_one_lt_limit hlt (by decide)

theorem roundResult_of_le {n : ℤ} (h : Equals v n) (hn : n.natAbs ≤ 4) :
    roundResult v = ofInt n := by
  have hmem : n ∈ ([-4, -3, -2, -1, 0, 1, 2, 3, 4] : List ℤ) := by
    simp only [List.mem_cons, List.not_mem_nil, or_false]
    omega
  have hv : v = ofUnits (isNegative v) (n.natAbs * one) := by
    rw [ofUnits_eq_rounded]
    exact_mod_cast h.eq_rounded
  rw [hv, roundResult_small n hmem _ h.isNegative_eq]

theorem isFinite_roundResult {n : ℤ} (h : Equals v n) (hlt : n.natAbs < 2 ^ 53) :
    (roundResult v).isFinite = true := by
  by_cases hn : 4 < n.natAbs
  · exact isFinite_roundResult_of_lt h hn hlt
  · rw [roundResult_of_le h (not_lt.1 hn)]
    exact isFinite_ofInt hlt

/-- A committed whole number is kept if, and only if, scaling it loses little enough. -/
theorem roundResult_eq_ofInt_iff {n : ℤ} (h : Equals v n) (hlt : n.natAbs < 2 ^ 53) :
    roundResult v = ofInt n ↔ ScalesBack n.natAbs := by
  by_cases hn : 4 < n.natAbs
  · have hkept : roundUnits ((n.natAbs : ℚ) * one) = n.natAbs * one := by
      rw [roundUnits_natCast_mul_one, (representable_of_le hlt.le).roundUnits_eq]
    have hlimit : roundUnits ((n.natAbs : ℚ) * one) < limit := by
      rw [hkept]
      exact mul_one_lt_limit hlt (by decide)
    rw [roundResult_eq h hn hlt, ofInt_eq_rounded, rounded_eq_rounded_iff hlimit, hkept,
      roundUnits_scaled_div (show n.natAbs ≠ 0 by omega) hlt]
  · have hle := not_lt.1 hn
    exact iff_of_true (roundResult_of_le h hle) (scalesBack_of_le (by omega))

/-- An expression that is worth a whole number below `2 ^ 53` is evaluated to just that number if,
and only if, scaling the number by `10 ^ 12` loses little enough. That is so for all numbers up to
the one where `n · 10 ^ 12` first is no float. -/
theorem evaluate_whole_iff {raw : Text} {v : Float} {n : ℤ} (hraw : unrounded raw = .ok (some v))
    (hv : Equals v n) (hlt : n.natAbs < 2 ^ 53) :
    (evaluate raw = .ok (ofInt n) ↔ ScalesBack n.natAbs) ∧
      (n.natAbs ≤ 36893488 → evaluate raw = .ok (ofInt n)) := by
  have heval : evaluate raw = .ok (roundResult v) := by
    unfold evaluate
    rw [hraw]
    exact if_pos (isFinite_roundResult hv hlt)
  have hiff : evaluate raw = .ok (ofInt n) ↔ ScalesBack n.natAbs := by
    rw [heval, ← roundResult_eq_ofInt_iff hv hlt, Except.ok.injEq]
  exact ⟨hiff, fun hle => hiff.2 (scalesBack_of_le hle)⟩

theorem evaluate_whole_iff_at_minus_twelve :
    unrounded ['-', '1', '2'] = .ok (some (ofInt (-12))) ∧ Equals (ofInt (-12)) (-12) ∧
      (evaluate ['-', '1', '2'] = .ok (ofInt (-12)) ↔ ScalesBack 12) ∧
      evaluate ['-', '1', '2'] = .ok (ofInt (-12)) := by
  have hraw : unrounded ['-', '1', '2'] = .ok (some (ofInt (-12))) := by decide +kernel
  have hv : Equals (ofInt (-12)) (-12) := by decide +kernel
  obtain ⟨hiff, hkept⟩ := evaluate_whole_iff hraw hv (by decide)
  exact ⟨hraw, hv, hiff, hkept (by decide)⟩

/-- The number next above that bound is evaluated to the float next below it. -/
theorem not_forall_evaluate_whole : ¬∀ (raw : Text) (v : Float) (n : ℤ),
    unrounded raw = .ok (some v) → Equals v n → n.natAbs < 2 ^ 53 →
      evaluate raw = .ok (ofInt n) := by
  intro h
  have hraw : unrounded "36893489".toList = .ok (some (ofInt 36893489)) := by decide +kernel
  have hv : Equals (ofInt 36893489) 36893489 := by decide +kernel
  have hne : evaluate "36893489".toList ≠ .ok (ofInt 36893489) := by decide +kernel
  exact hne (h _ _ _ hraw hv (by decide))

end KeypadCalc.Evaluation
