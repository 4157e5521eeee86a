import KeypadCalc.NumberText
import KeypadCalc.Proofs.Binary64.Accuracy
import KeypadCalc.Proofs.Binary64.HalfUp
import KeypadCalc.Proofs.Binary64.Nearest
import KeypadCalc.Proofs.Decimal.Shortest

/-! Rounding to the places of the display. Below `2 ^ 19` the floats lie closer together than the
places, so that the places are found again in the float that is nearest to them. From there on the
places lie closer together, and a float comes back from its places. Main statement: in either range
the float that the places are rounded to has the same places. -/

namespace KeypadCalc

open Binary64

namespace Decimal

variable {v : Float} {n : ℕ}

/-! ### Rounding to places -/

theorem divideToEven_eq (n : ℕ) {d : ℕ} (hd : 0 < d) : divideToEven n d = nearestEven (n / d) := by
  have hd' : (0 : ℚ) < d := by exact_mod_cast hd
  have hfloor : ⌊(n : ℚ) / d⌋₊ = n / d := Nat.floor_div_eq_div n d
  have hrest : (n : ℚ) / d - (n / d : ℕ) = (n % d : ℕ) / d := by
    rw [sub_eq_iff_eq_add, div_eq_iff hd'.ne', add_mul, div_mul_cancel₀ _ hd'.ne']
    exact_mod_cast (Nat.mod_add_div' n d).symm
  have hless : (n : ℚ) / d - (n / d : ℕ) < 1 / 2 ↔ 2 * (n % d) < d := by
    rw [hrest, div_lt_div_iff₀ hd' (by norm_num), one_mul, mul_comm]
    exact_mod_cast Iff.rfl
  have htie : (n : ℚ) / d - (n / d : ℕ) = 1 / 2 ↔ 2 * (n % d) = d := by
    rw [hrest, div_eq_div_iff hd'.ne' (by norm_num), one_mul, mul_comm]
    exact_mod_cast Iff.rfl
  simp only [divideToEven, nearestEven, hfloor, hless, htie]

theorem scaled_div_pow (hn : n ≤ places) (v : Float) :
    (scaled v : ℚ) / (10 ^ (places - n) : ℕ) = |toRat v| * 10 ^ n := by
  obtain ⟨k, hk⟩ : ∃ k, places = n + k := Nat.exists_eq_add_of_le hn
  rw [abs_toRat, one_eq_pow, scaled_eq, hk, Nat.add_sub_cancel_left]
  generalize units v = u
  have hten : ∀ j : ℕ, (10 : ℚ) ^ j = 2 ^ j * 5 ^ j := fun j => by
    rw [← mul_pow]
    norm_num
  push_cast
  rw [hten, hten, pow_add, pow_add]
  field_simp

/-- Rounding to places is rounding the number of units of the last place. -/
theorem roundPlaces_eq_rounded (hn : n ≤ places) (v : Float) :
    roundPlaces n v =
      rounded (isNegative v) (nearestEven (|toRat v| * 10 ^ n) / 10 ^ n * one) := by
  have hvalue : (⟨divideToEven (scaled v) (Nat.pow 10 (places - n)), -n⟩ : Decimal).value =
      nearestEven (|toRat v| * 10 ^ n) / 10 ^ n := by
    simp only [value, Nat.pow_eq]
    rw [divideToEven_eq _ (Nat.pow_pos (by decide)), scaled_div_pow hn, zpow_neg, zpow_natCast,
      div_eq_mul_inv]
  unfold roundPlaces
  simp only [toFloat_eq_rounded, hvalue]
  cases isNegative v with
  | false => rfl
  | true => exact neg_rounded

end Decimal

namespace NumberText

open Decimal

variable {v : Float} {m n k : ℕ}

/-! ### Places and floats -/

/-- The number of units of the last place of the display that is nearest to a magnitude, a tie going
to the even one. -/
def placesOf (n : ℕ) : ℕ := nearestEven ((n : ℚ) / one * 10 ^ displayPlaces)

/-- The float nearest to a number of units of the last place. -/
def ofPlaces (m : ℕ) : ℕ := roundUnits ((m : ℚ) / 10 ^ displayPlaces * one)

theorem pow_displayPlaces : (10 : ℚ) ^ displayPlaces = 10 ^ 10 := rfl

theorem units_nonneg (n : ℕ) : (0 : ℚ) ≤ (n : ℚ) / one * 10 ^ displayPlaces :=
  mul_nonneg (div_nonneg (Nat.cast_nonneg n) one_cast_pos.le) (pow_nonneg (by norm_num) _)

theorem places_nonneg (m : ℕ) : (0 : ℚ) ≤ (m : ℚ) / 10 ^ displayPlaces * one :=
  mul_nonneg (div_nonneg (Nat.cast_nonneg m) (pow_nonneg (by norm_num) _)) one_cast_pos.le

theorem placesOf_mono (h : m ≤ n) : placesOf m ≤ placesOf n := by
  refine nearestEven_mono (mul_le_mul_of_nonneg_right ?_ (pow_nonneg (by norm_num) _))
  exact div_le_div_of_nonneg_right (Nat.cast_le.2 h) one_cast_pos.le

theorem ofPlaces_mono (h : m ≤ n) : ofPlaces m ≤ ofPlaces n := by
  refine roundUnits_mono (places_nonneg m) (mul_le_mul_of_nonneg_right ?_ one_cast_pos.le)
  exact div_le_div_of_nonneg_right (Nat.cast_le.2 h) (pow_nonneg (by norm_num) _)

theorem placesOf_mul_one (n : ℕ) : placesOf (n * one) = n * 10 ^ displayPlaces := by
  rw [placesOf, Nat.cast_mul, mul_div_cancel_right₀ _ one_cast_pos.ne']
  exact_mod_cast nearestEven_natCast (n * 10 ^ displayPlaces)

theorem ofPlaces_mul (n : ℕ) : ofPlaces (n * 10 ^ displayPlaces) = roundUnits n * one := by
  rw [ofPlaces, Nat.cast_mul, Nat.cast_pow, Nat.cast_ofNat,
    mul_div_cancel_right₀ _ (pow_ne_zero _ (by norm_num)), roundUnits_natCast_mul_one]

/-- A whole float has no places and comes back. -/
theorem ofPlaces_placesOf_of_dvd (hn : Representable n) (h : one ∣ n) :
    ofPlaces (placesOf n) = n := by
  obtain ⟨q, hq⟩ := h
  rw [mul_comm] at hq
  have hround := roundUnits_natCast_mul_one q
  rw [← Nat.cast_mul, ← hq, hn.roundUnits_eq] at hround
  rw [hq, placesOf_mul_one, ofPlaces_mul, ← hround, hq]

/-- The distance between a float and a number of places, in units and in places. -/
theorem abs_places_sub (w m : ℕ) :
    |(w : ℚ) / one * 10 ^ displayPlaces - m| =
      |(w : ℚ) - m / 10 ^ displayPlaces * one| * (10 ^ 10 / one) := by
  have hone := one_cast_pos
  rw [pow_displayPlaces]
  generalize (one : ℚ) = c at hone
  rw [← abs_of_pos (by positivity : (0 : ℚ) < 10 ^ 10 / c), ← abs_mul]
  congr 1
  field_simp

/-- Below `2 ^ 19` the places are found again. -/
theorem placesOf_ofPlaces_of_lt (h : (m : ℚ) / 10 ^ displayPlaces * one < 2 ^ 19 * one) :
    placesOf (ofPlaces m) = m := by
  have hclose := abs_roundUnits_sub_le_of_lt (by decide) (places_nonneg m) h
  have hnear : |(ofPlaces m : ℚ) / one * 10 ^ displayPlaces - m| < 1 / 2 := by
    have hone := one_cast_pos
    rw [abs_places_sub, ofPlaces]
    generalize (roundUnits _ : ℚ) - m / 10 ^ displayPlaces * one = distance at hclose ⊢
    generalize (one : ℚ) = c at hone hclose
    calc
      |distance| * (10 ^ 10 / c) ≤ c / 2 ^ 35 * (10 ^ 10 / c) :=
        mul_le_mul_of_nonneg_right hclose (by positivity)
      _ = 10 ^ 10 / 2 ^ 35 := by field_simp
      _ < 1 / 2 := by norm_num
  obtain ⟨h1, h2⟩ := abs_lt.1 hnear
  exact nearestEven_eq (by linarith) (by linarith) (units_nonneg _)

/-- From `2 ^ 19` on the floats are more than a place apart. -/
theorem one_le_spacing (h : 2 ^ 19 * one ≤ n) : (one : ℚ) ≤ 2 ^ spacing n * 2 ^ 33 := by
  obtain ⟨k, hk, hone⟩ := exists_one_eq (show 33 ≤ 1074 by decide)
  rw [hone] at h ⊢
  clear hone
  have hspacing : spacing ((2 : ℚ) ^ (k + 52)) = k :=
    spacing_eq (.inr le_rfl) (pow_lt_pow_right₀ (by norm_num) (by omega)) (by positivity)
  have hle : (2 : ℚ) ^ (k + 52) ≤ n := by
    rw [pow_add, mul_comm]
    have h' : 2 ^ 52 * 2 ^ k ≤ n := by rwa [← mul_assoc, ← pow_add] at h
    exact_mod_cast h'
  have hpow := pow_le_pow_right₀ (by norm_num : (1 : ℚ) ≤ 2)
    (hspacing.symm.trans_le (spacing_mono hle))
  push_cast
  linarith

/-- From `2 ^ 19` on floats come back. -/
theorem ofPlaces_placesOf_of_le (hn : Representable n) (hle : 2 ^ 19 * one ≤ n) :
    ofPlaces (placesOf n) = n := by
  by_cases hdvd : one ∣ n
  · exact ofPlaces_placesOf_of_dvd hn hdvd
  · have hpow : ∀ j, n ≠ 2 ^ j := by
      rintro j rfl
      obtain ⟨k, -, hk⟩ := exists_one_eq (Nat.zero_le 1074)
      rw [pow_zero, one_mul] at hk
      rw [hk, ← pow_add] at hle
      have := (Nat.pow_le_pow_iff_right (by decide)).1 hle
      exact hdvd (hk ▸ Nat.pow_dvd_pow 2 (by omega))
    refine hn.roundUnits_eq_of_abs_sub_lt_half hpow (places_nonneg _) ?_
    have hhalf := abs_nearestEven_sub_le_half (units_nonneg n)
    rw [abs_sub_comm]
    rw [abs_sub_comm, ← placesOf, abs_places_sub] at hhalf
    have hone := one_cast_pos
    have hspacing := one_le_spacing hle
    generalize (n : ℚ) - placesOf n / 10 ^ displayPlaces * one = distance at hhalf ⊢
    generalize (one : ℚ) = c at hone hhalf hspacing
    rw [← mul_div_assoc, div_le_iff₀ hone] at hhalf
    have hpos : (0 : ℚ) < 2 ^ spacing n := by positivity
    linarith

/-- The places of a float stay the same when they are rounded to a float. -/
theorem placesOf_ofPlaces_placesOf (hn : Representable n) :
    placesOf (ofPlaces (placesOf n)) = placesOf n := by
  rcases Nat.lt_or_ge n (2 ^ 19 * one) with hlt | hge
  · rcases lt_or_ge ((placesOf n : ℚ) / 10 ^ displayPlaces * one) (2 ^ 19 * one) with hlow | hhigh
    · exact placesOf_ofPlaces_of_lt hlow
    -- rounded up to the bound, which has the places that it is rounded from
    · have hbound : placesOf n = 2 ^ 19 * 10 ^ displayPlaces := by
        refine le_antisymm ((placesOf_mono hlt.le).trans_eq (placesOf_mul_one _)) ?_
        have hhigh' := le_of_mul_le_mul_right hhigh one_cast_pos
        rw [le_div_iff₀ (pow_pos (by norm_num) _)] at hhigh'
        exact_mod_cast hhigh'
      rw [hbound, ofPlaces_mul, (representable_two_pow 19).roundUnits_eq, placesOf_mul_one]
  · rw [ofPlaces_placesOf_of_le hn hge]

end NumberText

end KeypadCalc
