import KeypadCalc.Json.Numeral
import KeypadCalc.Proofs.Decimal.Shortest

/-! Reading numbers. As long as the digits fit into 64 bits all of them are kept, and scaling by a
power of ten ends in a finite float or, for a power that is too large, in none. -/

namespace KeypadCalc.Json.Numeral

open Binary64 Decimal

variable {v w : Float} {n m k : ℕ} {p : ℤ}

/-! ### Digits -/

theorem le_ofDigitChars (ds : Text) (n : ℕ) : n ≤ Nat.ofDigitChars 10 ds n := by
  induction ds generalizing n with
  | nil => simp
  | cons d ds ih =>
    rw [Nat.ofDigitChars_cons]
    calc
      n ≤ 10 * n + (d.toNat - '0'.toNat) := by omega
      _ ≤ _ := ih _

theorem absorb_eq {ds : Text} (h : Nat.ofDigitChars 10 ds n < UInt64.size) :
    absorb n ds = (Nat.ofDigitChars 10 ds n, []) := by
  induction ds generalizing n with
  | nil => simp [absorb]
  | cons d ds ih =>
    rw [Nat.ofDigitChars_cons, mul_comm] at h
    have hnext : n * 10 + digitValue d < UInt64.size := (le_ofDigitChars ds _).trans_lt h
    simp only [absorb, hnext, if_true]
    rw [Nat.ofDigitChars_cons, mul_comm 10 n]
    exact ih h

/-! ### Powers of ten -/

theorem powerOfTen_eq_rounded (n : ℕ) : powerOfTen n = rounded false ((10 ^ n : ℕ) * one) := by
  rw [powerOfTen, Decimal.toFloat_eq_rounded, value, Nat.cast_one, one_mul, zpow_natCast,
    Nat.cast_pow, Nat.cast_ofNat]

theorem isFinite_powerOfTen (h : n ≤ maxPower) : (powerOfTen n).isFinite = true := by
  have hmax : (powerOfTen maxPower).isFinite = true := by decide +kernel
  rw [powerOfTen_eq_rounded, isFinite_rounded, roundUnits_natCast_mul_one] at hmax ⊢
  refine Nat.lt_of_le_of_lt (Nat.mul_le_mul_right _ ?_) hmax
  exact roundUnits_mono (Nat.cast_nonneg _)
    (by exact_mod_cast Nat.pow_le_pow_right (by decide) h)

theorem isNegative_powerOfTen (n : ℕ) : isNegative (powerOfTen n) = false := by
  rw [powerOfTen_eq_rounded, isNegative_rounded]

theorem units_powerOfTen (h : n ≤ maxPower) :
    units (powerOfTen n) = roundUnits (10 ^ n : ℕ) * one := by
  have hfin := isFinite_powerOfTen h
  rw [powerOfTen_eq_rounded, isFinite_rounded] at hfin
  rw [powerOfTen_eq_rounded, units_rounded hfin, roundUnits_natCast_mul_one]

theorem one_le_roundUnits_pow (n : ℕ) : 1 ≤ roundUnits (10 ^ n : ℕ) := by
  have hone := (representable_of_le (n := 1) (by decide)).roundUnits_eq
  calc
    1 = roundUnits (1 : ℕ) := hone.symm
    _ ≤ roundUnits (10 ^ n : ℕ) :=
      roundUnits_mono (by norm_num) (by exact_mod_cast Nat.one_le_pow _ _ (by decide))

/-! ### Scaling -/

theorem isFinite_div_powerOfTen (hv : v.isFinite = true) (h : n ≤ maxPower) :
    (v / powerOfTen n).isFinite = true := by
  have hfin := isFinite_powerOfTen h
  have hunits := units_powerOfTen h
  have hone := one_le_roundUnits_pow n
  have hpos := one_pos
  have hle : one ≤ units (powerOfTen n) := by
    rw [hunits]
    exact Nat.le_mul_of_pos_left _ hone
  rw [div_eq_rounded hv hfin (by omega), isFinite_rounded]
  refine Nat.lt_of_le_of_lt ?_ (units_lt_limit hv)
  conv_rhs => rw [← roundUnits_units hv]
  generalize units (powerOfTen n) = t at hle
  generalize units v = u
  generalize one = o at *
  have ht : (0 : ℚ) < t := by exact_mod_cast hpos.trans_le hle
  have hle' : (o : ℚ) ≤ t := by exact_mod_cast hle
  refine roundUnits_mono (by positivity) ?_
  rw [div_mul_eq_mul_div, div_le_iff₀ ht]
  exact mul_le_mul_of_nonneg_left hle' (Nat.cast_nonneg u)

theorem scale_of_nonneg (h0 : 0 ≤ p) (h : p.natAbs ≤ maxPower) :
    scale v p = if (v * powerOfTen p.natAbs).isInf then none
      else some (v * powerOfTen p.natAbs) := by
  rw [scale, if_pos h, if_pos h0]

theorem scale_of_neg (h0 : p < 0) (h : p.natAbs ≤ maxPower) :
    scale v p = some (v / powerOfTen p.natAbs) := by
  rw [scale, if_pos h, if_neg (by omega)]

theorem isFinite_mul (hv : v.isFinite = true) (hw : w.isFinite = true) :
    (v * w).isFinite = true ↔ (v * w).isInf ≠ true := by
  rw [mul_eq_rounded hv hw, isFinite_rounded, ne_eq, isInf_rounded, not_le]

/-- Whatever a finite float is scaled by, what comes out is finite. -/
theorem isFinite_of_scale (hv : v.isFinite = true) (h : scale v p = some w) :
    w.isFinite = true := by
  fun_induction scale v p with
  | case1 v p hle h0 scaled hinf => simp at h
  | case2 v p hle h0 scaled hinf =>
    obtain rfl := Option.some.inj h
    exact (isFinite_mul hv (isFinite_powerOfTen hle)).2 hinf
  | case3 v p hle h0 =>
    obtain rfl := Option.some.inj h
    exact isFinite_div_powerOfTen hv hle
  | case4 v p hlt hzero =>
    obtain rfl := Option.some.inj h
    exact hv
  | case5 => simp at h
  | case6 v p hlt hzero h0 ih => exact ih (isFinite_div_powerOfTen hv le_rfl) h

/-- Scaling down always gives a float. -/
theorem isSome_scale_of_neg (v : Float) (h : p < 0) : (scale v p).isSome = true := by
  fun_induction scale v p with
  | case1 v p hle h0 => omega
  | case2 v p hle h0 => omega
  | case3 => rfl
  | case4 => rfl
  | case5 v p hlt hzero h0 => omega
  | case6 v p hlt hzero h0 ih => exact ih (by simp only [maxPower] at *; omega)

theorem toFloat_toUInt64 (h : n < UInt64.size) :
    n.toUInt64.toFloat = rounded false (n * one) := by
  have hnat : n.toUInt64.toNat = n := Nat.mod_eq_of_lt h
  rw [Binary64.toFloat_eq_rounded, hnat]

theorem isFinite_toFloat (u : UInt64) : u.toFloat.isFinite = true := by
  have hrep : Representable UInt64.size := representable_two_pow 64
  rw [Binary64.toFloat_eq_rounded, isFinite_rounded, roundUnits_natCast_mul_one]
  refine mul_one_lt_limit (j := 65) ?_ (by decide)
  calc
    roundUnits u.toNat ≤ roundUnits UInt64.size :=
      roundUnits_mono (Nat.cast_nonneg _) (by exact_mod_cast u.toNat_lt.le)
    _ = UInt64.size := hrep.roundUnits_eq
    _ < 2 ^ 65 := by decide

theorem units_toUInt64 (h : n < UInt64.size) :
    units n.toUInt64.toFloat = roundUnits n * one := by
  have hfin := isFinite_toFloat n.toUInt64
  rw [toFloat_toUInt64 h, isFinite_rounded] at hfin
  rw [toFloat_toUInt64 h, units_rounded hfin, roundUnits_natCast_mul_one]

theorem isNegative_toUInt64 (h : n < UInt64.size) : isNegative n.toUInt64.toFloat = false := by
  rw [toFloat_toUInt64 h, isNegative_rounded]

theorem mul_powerOfTen_eq (h : n < UInt64.size) (hk : k ≤ maxPower) :
    n.toUInt64.toFloat * powerOfTen k =
      rounded false ((roundUnits n * roundUnits (10 ^ k : ℕ) : ℕ) * one) := by
  rw [mul_eq_rounded (isFinite_toFloat _) (isFinite_powerOfTen hk), isNegative_toUInt64 h,
    isNegative_powerOfTen, units_toUInt64 h, units_powerOfTen hk]
  have hone := one_cast_pos
  refine congrArg (rounded _) ?_
  generalize one = o at hone
  generalize roundUnits n = r
  generalize roundUnits (10 ^ k : ℕ) = t
  push_cast
  field_simp

theorem div_powerOfTen_eq (h : n < UInt64.size) (hk : k ≤ maxPower) :
    n.toUInt64.toFloat / powerOfTen k =
      rounded false ((roundUnits n : ℚ) / roundUnits (10 ^ k : ℕ) * one) := by
  have hpos := one_pos
  have hten := one_le_roundUnits_pow k
  have hne : units (powerOfTen k) ≠ 0 := by
    rw [units_powerOfTen hk]
    exact (Nat.mul_pos hten hpos).ne'
  rw [div_eq_rounded (isFinite_toFloat _) (isFinite_powerOfTen hk) hne, isNegative_toUInt64 h,
    isNegative_powerOfTen, units_toUInt64 h, units_powerOfTen hk]
  have hone := one_cast_pos
  refine congrArg (rounded _) ?_
  generalize one = o at hone
  generalize roundUnits n = r
  generalize roundUnits (10 ^ k : ℕ) = t
  push_cast
  field_simp

theorem isSome_scale_iff (h : n < UInt64.size) (hk : k ≤ maxPower) :
    (scale n.toUInt64.toFloat k).isSome = true ↔
      roundUnits (roundUnits n * roundUnits (10 ^ k : ℕ) : ℕ) * one < limit := by
  rw [scale_of_nonneg (Int.natCast_nonneg k) hk, Int.natAbs_natCast, mul_powerOfTen_eq h hk,
    ← roundUnits_natCast_mul_one, ← not_le, ← isInf_rounded (b := false)]
  split
  · rename_i hinf
    exact iff_of_false Bool.false_ne_true (not_not.2 hinf)
  · rename_i hinf
    exact iff_of_true rfl hinf

/-- What is read from a number is finite, whatever its digits and its power are. -/
theorem isFinite_of_toFloat? {numeral : Numeral} (h : numeral.toFloat? = some v) :
    v.isFinite = true := by
  obtain ⟨w, hscale, rfl⟩ := Option.map_eq_some_iff.1 h
  have hw := isFinite_of_scale (isFinite_toFloat _) hscale
  split
  · exact isFinite_neg hw
  · exact hw

/-- A product of smaller factors is no larger. -/
theorem isSome_scale_of_le {k' : ℕ} (hn : n ≤ m) (hm : m < UInt64.size) (hk : k ≤ k')
    (hk' : k' ≤ maxPower) (h : (scale m.toUInt64.toFloat k').isSome = true) :
    (scale n.toUInt64.toFloat k).isSome = true := by
  rw [isSome_scale_iff hm hk'] at h
  rw [isSome_scale_iff (hn.trans_lt hm) (hk.trans hk')]
  refine Nat.lt_of_le_of_lt (Nat.mul_le_mul_right _ ?_) h
  have h1 : roundUnits n ≤ roundUnits m :=
    roundUnits_mono (Nat.cast_nonneg n) (by exact_mod_cast hn)
  have h2 : roundUnits (10 ^ k : ℕ) ≤ roundUnits (10 ^ k' : ℕ) :=
    roundUnits_mono (Nat.cast_nonneg _)
      (by exact_mod_cast Nat.pow_le_pow_right (by decide) hk)
  exact roundUnits_mono (Nat.cast_nonneg _) (by exact_mod_cast Nat.mul_le_mul h1 h2)

/-! ### Shortest decimals -/

/-- The greatest significands that can be read with the greatest powers. -/
theorem isSome_scale_of_large : ∀ k < 16,
    (scale ((2 ^ 1024 - 1) / 10 ^ (293 + k)).toUInt64.toFloat (293 + k : ℕ)).isSome = true := by
  decide +kernel

/-- A decimal that is rounded to a finite float is less than `2 ^ 1024`. -/
theorem mul_pow_lt_of_finite {s k : ℕ} (hv : v.isFinite = true)
    (h : roundUnits ((⟨s, k⟩ : Decimal).value * one) = units v) : s * 10 ^ k < 2 ^ 1024 := by
  have hlt := units_lt_limit hv
  have hvalue : (⟨s, k⟩ : Decimal).value = (s * 10 ^ k : ℕ) := by simp [value]
  rw [← h, hvalue, roundUnits_natCast_mul_one] at hlt
  generalize hj : 1024 = j at *
  by_contra hge
  have hle : 2 ^ j ≤ roundUnits (s * 10 ^ k : ℕ) := by
    rw [← (representable_two_pow j).roundUnits_eq]
    exact roundUnits_mono (Nat.cast_nonneg _) (by exact_mod_cast not_lt.1 hge)
  have := Nat.mul_le_mul_right one hle
  have hlimit := limit_le_mul_one
  rw [hj] at hlimit
  omega

/-- What is written of the greatest float ends in a seven. The digits with an eight at the end
would be too much for scaling, although they stand for the same float. -/
theorem shortest_ne_of_even (hv : v.isFinite = true)
    (h : roundUnits ((shortest .even v).value * one) = units v) :
    shortest .even v ≠ ⟨17976931348623158, 292⟩ := by
  intro heq
  have hgreatest : shortest .even (⟨17976931348623158, 292⟩ : Decimal).toFloat =
      ⟨17976931348623157, 292⟩ := by decide +kernel
  have habs : (⟨17976931348623158, 292⟩ : Decimal).toFloat = v.abs := by
    rw [Decimal.toFloat_eq_rounded, abs_eq_rounded hv, ← heq]
    exact rounded_congr (h.trans (roundUnits_units hv).symm)
  rw [habs, shortest_abs _ hv, heq] at hgreatest
  cases hgreatest

/-- With the greatest powers every decimal below `2 ^ 1024` can be scaled. -/
theorem isSome_scale_of_mul_pow_lt {s k : ℕ} (hs : 0 < s) (hlt : s * 10 ^ k < 2 ^ 1024)
    (hlarge : 293 ≤ k) : (scale s.toUInt64.toFloat k).isSome = true := by
  have hk : k < maxPower + 1 := by
    have hten : 10 ^ k < 10 ^ (maxPower + 1) := by
      calc
        10 ^ k ≤ s * 10 ^ k := Nat.le_mul_of_pos_left _ hs
        _ < 2 ^ 1024 := hlt
        _ < 10 ^ (maxPower + 1) := by decide +kernel
    exact (Nat.pow_lt_pow_iff_right (by decide)).1 hten
  obtain ⟨j, rfl⟩ : ∃ j, k = 293 + j := ⟨k - 293, by omega⟩
  have hdiv : s ≤ (2 ^ 1024 - 1) / 10 ^ (293 + j) :=
    (Nat.le_div_iff_mul_le (by positivity)).2 (Nat.le_sub_one_of_lt hlt)
  have hfits : (2 ^ 1024 - 1) / 10 ^ (293 + j) < UInt64.size := by
    calc
      (2 ^ 1024 - 1) / 10 ^ (293 + j) ≤ (2 ^ 1024 - 1) / 10 ^ 293 :=
        Nat.div_le_div_left (Nat.pow_le_pow_right (by decide) (by omega)) (by decide +kernel)
      _ < UInt64.size := by decide +kernel
  exact isSome_scale_of_le hdiv hfits le_rfl (Nat.le_of_lt_succ hk)
    (isSome_scale_of_large j (by simp only [maxPower] at hk; omega))

/-- At the power of the greatest float two significands below `2 ^ 1024` are too large: one that
stands for no finite float, and one that is not the digits with which the greatest is written. -/
theorem isSome_scale_greatest {s : ℕ} (hv : v.isFinite = true)
    (hround : roundUnits ((⟨s, 292⟩ : Decimal).value * one) = units v)
    (hne : s ≠ 17976931348623158) : (scale s.toUInt64.toFloat (292 : ℕ)).isSome = true := by
  have hlt := mul_pow_lt_of_finite (k := 292) hv hround
  have hle : s ≤ 17976931348623159 := by
    have hdiv : s ≤ (2 ^ 1024 - 1) / 10 ^ 292 :=
      (Nat.le_div_iff_mul_le (by positivity)).2 (Nat.le_sub_one_of_lt hlt)
    rwa [show (2 ^ 1024 - 1) / 10 ^ 292 = 17976931348623159 by decide +kernel] at hdiv
  have hinfinite : s ≠ 17976931348623159 := by
    rintro rfl
    have hfin : (⟨17976931348623159, 292⟩ : Decimal).toFloat.isFinite = true := by
      rw [Decimal.toFloat_eq_rounded, isFinite_rounded]
      exact hround.trans_lt (units_lt_limit hv)
    exact absurd hfin (by decide +kernel)
  have hmax : (scale (17976931348623157 : ℕ).toUInt64.toFloat (292 : ℕ)).isSome = true := by
    decide +kernel
  exact isSome_scale_of_le (by omega) (by decide) le_rfl (by decide) hmax

/-- The shortest decimal of a finite float can be scaled without becoming infinite. -/
theorem isSome_scale_shortest (hv : v.isFinite = true) (h0 : units v ≠ 0) :
    (scale (shortest .even v).significand.toUInt64.toFloat
      (shortest .even v).exponent).isSome = true := by
  obtain ⟨hround, hs, hle⟩ := shortest_spec .even hv h0
  have hne := shortest_ne_of_even hv hround
  generalize shortest .even v = d at *
  obtain ⟨s, e⟩ := d
  simp only at hs hle ⊢
  rcases lt_or_ge e 0 with hneg | hpos
  · exact isSome_scale_of_neg _ hneg
  obtain ⟨k, rfl⟩ : ∃ k : ℕ, e = k := ⟨e.toNat, by omega⟩
  rcases lt_trichotomy k 292 with hsmall | rfl | hlarge
  · have hmax : (scale (10 ^ 17 : ℕ).toUInt64.toFloat (291 : ℕ)).isSome = true := by
      decide +kernel
    exact isSome_scale_of_le hle (by decide) (by omega) (by decide) hmax
  · refine isSome_scale_greatest hv hround ?_
    rintro rfl
    exact hne rfl
  · exact isSome_scale_of_mul_pow_lt hs (mul_pow_lt_of_finite hv hround) hlarge

end KeypadCalc.Json.Numeral
