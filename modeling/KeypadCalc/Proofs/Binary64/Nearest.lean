import KeypadCalc.Proofs.Binary64.Rounding

/-! Rounding as the choice of the nearest float. No float is nearer to a number than the one it is
rounded to, and what lies nearer to that float is rounded to it as well, unless it is a power of
two: there the floats below lie closer than those above. -/

namespace KeypadCalc.Binary64

variable {x y u w : ℚ} {m n c : ℕ}

/-! ### Whole numbers -/

theorem abs_nearestEven_sub_le_half (hx : 0 ≤ x) : |(nearestEven x : ℚ) - x| ≤ 1 / 2 := by
  have h1 := sub_half_le_nearestEven x
  have h2 := nearestEven_le_add_half hx
  exact abs_le.2 ⟨by linarith, by linarith⟩

theorem abs_nearestEven_sub_le (hx : 0 ≤ x) (i : ℕ) :
    |(nearestEven x : ℚ) - x| ≤ |(i : ℚ) - x| := by
  by_cases hi : nearestEven x = i
  · rw [hi]
  · have hhalf := abs_nearestEven_sub_le_half hx
    have hone : (1 : ℚ) ≤ |(i : ℚ) - nearestEven x| := by
      have hint : (1 : ℤ) ≤ |(i : ℤ) - nearestEven x| := Int.one_le_abs (by omega)
      exact_mod_cast hint
    have htriangle := abs_sub_le (i : ℚ) x (nearestEven x)
    rw [abs_sub_comm x] at htriangle
    linarith

/-- Halfway between two whole numbers the even one is taken. -/
theorem nearestEven_eq_iff_of_tie (hx : 0 ≤ x) (h : |x - n| = 1 / 2) :
    nearestEven x = n ↔ n % 2 = 0 := by
  rcases (abs_eq (by norm_num)).1 h with h | h
  · have hx' : x = n + 1 / 2 := by linarith
    rw [hx', nearestEven_tie]
    omega
  · obtain ⟨k, rfl⟩ : ∃ k, n = k + 1 := by
      refine ⟨n - 1, (Nat.succ_pred_eq_of_pos (Nat.pos_of_ne_zero ?_)).symm⟩
      rintro rfl
      rw [Nat.cast_zero] at h
      linarith
    have hx' : x = k + 1 / 2 := by
      push_cast at h
      linarith
    rw [hx', nearestEven_tie]
    omega

/-- What is no farther from a whole number than a number that is rounded to it is rounded alike. -/
theorem nearestEven_eq_of_abs_sub_le (hx : 0 ≤ x) (hy : 0 ≤ y)
    (h : |y - nearestEven x| ≤ |x - nearestEven x|) : nearestEven y = nearestEven x := by
  have hhalf := abs_nearestEven_sub_le_half hx
  rw [abs_sub_comm] at hhalf
  rcases lt_or_eq_of_le (h.trans hhalf) with hlt | heq
  · obtain ⟨h1, h2⟩ := abs_lt.1 hlt
    exact nearestEven_eq (by linarith) (by linarith) hy
  · have htie : |x - nearestEven x| = 1 / 2 := le_antisymm hhalf (heq ▸ h)
    exact (nearestEven_eq_iff_of_tie hy heq).2 ((nearestEven_eq_iff_of_tie hx htie).1 rfl)

/-! ### Floats -/

theorem roundUnits_div_two_pow (u : ℚ) :
    (roundUnits u : ℚ) / 2 ^ spacing u = nearestEven (u / 2 ^ spacing u) := by
  rw [roundUnits]
  push_cast
  exact mul_div_cancel_right₀ _ (by positivity)

theorem abs_div_two_pow_sub (a u : ℚ) (k : ℕ) : |a / 2 ^ k - u / 2 ^ k| = |a - u| / 2 ^ k := by
  rw [← sub_div, abs_div, abs_of_pos (by positivity : (0 : ℚ) < 2 ^ k)]

/-- No float is nearer to a number than the one it is rounded to. -/
theorem Representable.abs_roundUnits_sub_le (hm : Representable m) (hu : 0 ≤ u) :
    |(roundUnits u : ℚ) - u| ≤ |(m : ℚ) - u| := by
  have hpos : (0 : ℚ) < 2 ^ spacing u := by positivity
  -- a multiple of the distance between the floats is no nearer
  have hgrid : ∀ i : ℕ, |(roundUnits u : ℚ) - u| ≤ |((i * 2 ^ spacing u : ℕ) : ℚ) - u| := by
    intro i
    have hle := abs_nearestEven_sub_le (div_nonneg hu hpos.le) i
    have hi : ((i * 2 ^ spacing u : ℕ) : ℚ) / 2 ^ spacing u = i := by
      push_cast
      exact mul_div_cancel_right₀ _ hpos.ne'
    rw [← roundUnits_div_two_pow, ← hi, abs_div_two_pow_sub, abs_div_two_pow_sub] at hle
    exact (div_le_div_iff_of_pos_right hpos).1 hle
  by_cases hdvd : 2 ^ spacing u ∣ m
  · obtain ⟨i, rfl⟩ := hdvd
    rw [mul_comm]
    exact hgrid i
  · -- the float lies below the range in which `u` is rounded
    have hlow : (2 : ℚ) ^ (spacing u + 52) ≤ u :=
      (two_pow_spacing_le hu).resolve_left fun h0 => hdvd (by simp [h0])
    have hm' : (m : ℚ) < 2 ^ (spacing u + 52) := by
      by_contra hge
      refine hdvd (dvd_trans (Nat.pow_dvd_pow 2 ?_) hm.dvd)
      have hspacing : spacing ((2 : ℚ) ^ (spacing u + 52)) = spacing u :=
        spacing_eq (.inr le_rfl) (pow_lt_pow_right₀ (by norm_num) (by omega)) (by positivity)
      exact hspacing.symm.trans_le (spacing_mono (not_lt.1 hge))
    refine (hgrid (2 ^ 52)).trans ?_
    have hcast : ((2 ^ 52 * 2 ^ spacing u : ℕ) : ℚ) = 2 ^ (spacing u + 52) := by
      push_cast
      ring
    rw [hcast, abs_of_nonpos (by linarith), abs_of_nonpos (by linarith)]
    linarith

/-- What is no farther from a float than a number that is rounded to it is rounded alike, if the
float is no power of two. -/
theorem roundUnits_eq_of_abs_sub_le (hu : 0 ≤ u) (hw : 0 ≤ w) (hne : ∀ j, roundUnits u ≠ 2 ^ j)
    (h : |w - roundUnits u| ≤ |u - roundUnits u|) : roundUnits w = roundUnits u := by
  have hpos : (0 : ℚ) < 2 ^ spacing u := by positivity
  have hm := roundUnits_div_two_pow u
  have hhalf := abs_nearestEven_sub_le_half (div_nonneg hu hpos.le)
  have hle := nearestEven_spacing_le u
  have hlow := le_nearestEven_spacing hu
  have hround : roundUnits u = nearestEven (u / 2 ^ spacing u) * 2 ^ spacing u := rfl
  have hne' : ∀ j, nearestEven (u / 2 ^ spacing u) ≠ 2 ^ j := fun j heq =>
    hne (j + spacing u) (by rw [hround, heq, pow_add])
  have hclose : |w / 2 ^ spacing u - nearestEven (u / 2 ^ spacing u)| ≤
      |u / 2 ^ spacing u - nearestEven (u / 2 ^ spacing u)| := by
    rw [← hm, abs_div_two_pow_sub, abs_div_two_pow_sub]
    exact (div_le_div_iff_of_pos_right hpos).2 h
  have hsame := nearestEven_eq_of_abs_sub_le (div_nonneg hu hpos.le) (div_nonneg hw hpos.le) hclose
  rw [hround]
  generalize spacing u = k at *
  generalize nearestEven (u / 2 ^ k) = m at *
  have h52 := hne' 52
  have h53 := hne' 53
  rw [abs_sub_comm] at hhalf
  obtain ⟨h1, h2⟩ := abs_le.1 (hclose.trans hhalf)
  have hwm : w = w / 2 ^ k * 2 ^ k := (div_mul_cancel₀ w hpos.ne').symm
  rw [roundUnits_eq (hlow.imp_right fun hlow => ?_) ?_ hw, hsame]
  · have hmax : ((m + 1 : ℕ) : ℚ) ≤ (2 ^ 53 : ℕ) := by exact_mod_cast (by omega : m + 1 ≤ 2 ^ 53)
    push_cast at hmax
    rw [hwm, add_comm, pow_add]
    exact mul_le_mul_of_nonneg_right (by linarith) hpos.le
  · have hmin : ((2 ^ 52 + 1 : ℕ) : ℚ) ≤ m := by exact_mod_cast (by omega : 2 ^ 52 + 1 ≤ m)
    push_cast at hmin
    rw [hwm, add_comm, pow_add]
    exact mul_le_mul_of_nonneg_right (by linarith) hpos.le

/-- What lies closer to a float than half the distance to the next float is rounded to it, if it is
no power of two: there the float below is nearer. -/
theorem Representable.roundUnits_eq_of_abs_sub_lt_half (hn : Representable n)
    (hne : ∀ j, n ≠ 2 ^ j) (hu : 0 ≤ u) (h : |u - n| < 2 ^ spacing n / 2) : roundUnits u = n := by
  obtain ⟨m, hm⟩ := hn.dvd
  have hlt := lt_two_pow_spacing (n : ℚ)
  have hle := two_pow_spacing_le (u := (n : ℚ)) (Nat.cast_nonneg n)
  generalize spacing (n : ℚ) = k at hm hlt hle h
  obtain rfl : n = m * 2 ^ k := by rw [hm, mul_comm]
  have hlt' : m * 2 ^ k < 2 ^ 53 * 2 ^ k := by
    rw [← pow_add, add_comm]
    exact_mod_cast hlt
  have hmax : m + 1 ≤ 2 ^ 53 := Nat.lt_of_mul_lt_mul_right hlt'
  have hmin : k = 0 ∨ 2 ^ 52 + 1 ≤ m := by
    refine hle.imp_right fun hle => ?_
    have hle' : 2 ^ 52 * 2 ^ k ≤ m * 2 ^ k := by
      rw [← pow_add, add_comm]
      exact_mod_cast hle
    have hge := Nat.le_of_mul_le_mul_right hle' (Nat.two_pow_pos k)
    have hpow := hne (52 + k)
    rw [pow_add] at hpow
    exact Nat.lt_of_le_of_ne hge fun heq => hpow (by rw [heq])
  have hpos : (0 : ℚ) < 2 ^ k := by positivity
  push_cast at h
  obtain ⟨h1, h2⟩ := abs_lt.1 h
  refine roundUnits_eq_mul (hmin.imp_right fun hmin => ?_) ?_ hu h
  · have hmin' : ((2 : ℚ) ^ 52 + 1) * 2 ^ k ≤ m * 2 ^ k :=
      mul_le_mul_of_nonneg_right (by exact_mod_cast hmin) hpos.le
    rw [pow_add]
    linarith
  · have hmax' : ((m : ℚ) + 1) * 2 ^ k ≤ 2 ^ 53 * 2 ^ k :=
      mul_le_mul_of_nonneg_right (by exact_mod_cast hmax) hpos.le
    rw [pow_add]
    linarith

/-- Dividing a float, multiplying the quotient back and dividing again gives the same quotient,
although each step is rounded. -/
theorem roundUnits_div_mul_div (hn : Representable n) (hc : Representable c) (hpos : 0 < c) :
    roundUnits (roundUnits ((roundUnits (n / c) : ℚ) * c) / c) = roundUnits (n / c) := by
  have hc' : (0 : ℚ) < c := by exact_mod_cast hpos
  have hu : (0 : ℚ) ≤ n / c := by positivity
  by_cases hpow : ∃ j, roundUnits (n / c) = 2 ^ j
  · obtain ⟨j, hj⟩ := hpow
    have hexact := (hc.mul_two_pow j).roundUnits_eq
    rw [mul_comm] at hexact
    push_cast at hexact
    rw [hj]
    push_cast
    rw [hexact]
    push_cast
    rw [mul_div_cancel_right₀ _ hc'.ne']
    exact_mod_cast (representable_two_pow j).roundUnits_eq
  · refine roundUnits_eq_of_abs_sub_le hu (by positivity) (not_exists.1 hpow) ?_
    generalize roundUnits (n / c) = p
    have hnear := hn.abs_roundUnits_sub_le (u := p * c) (by positivity)
    have hscale : ∀ a : ℚ, |a / c - p| = |a - p * c| / c := fun a => by
      rw [← mul_div_cancel_right₀ (p : ℚ) hc'.ne', ← sub_div, abs_div, abs_of_pos hc',
        mul_div_cancel_right₀ _ hc'.ne']
    rw [hscale, hscale]
    exact (div_le_div_iff_of_pos_right hc').2 hnear

end KeypadCalc.Binary64
