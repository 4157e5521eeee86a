import Mathlib.Algebra.Order.Floor.Semiring
import Mathlib.Data.Rat.Floor
import Mathlib.Tactic.FieldSimp
import Mathlib.Tactic.Linarith
import Mathlib.Tactic.NormNum
import Mathlib.Tactic.Positivity
import Mathlib.Tactic.Ring

/-! Rounding magnitudes to 53 binary digits. A magnitude counts units of the smallest float, so it
is a non-negative number and the floats are whole ones: below `2 ^ 53` every whole number is a
float, and above it the floats are `2 ^ spacing` apart. -/

namespace KeypadCalc.Binary64

variable {x y u : ℚ} {m n k : ℕ}

/-! ### The nearest whole number -/

/-- The whole number nearest to a non-negative number, a tie going to the even one. -/
def nearestEven (x : ℚ) : ℕ :=
  if x - ⌊x⌋₊ < 1 / 2 then ⌊x⌋₊ else if x - ⌊x⌋₊ = 1 / 2 then ⌊x⌋₊ + ⌊x⌋₊ % 2 else ⌊x⌋₊ + 1

theorem floor_le_nearestEven (x : ℚ) : ⌊x⌋₊ ≤ nearestEven x := by
  unfold nearestEven
  split_ifs <;> omega

theorem nearestEven_le_floor_succ (x : ℚ) : nearestEven x ≤ ⌊x⌋₊ + 1 := by
  unfold nearestEven
  split_ifs <;> omega

theorem sub_half_le_nearestEven (x : ℚ) : x - 1 / 2 ≤ nearestEven x := by
  have hlt := Nat.lt_floor_add_one x
  unfold nearestEven
  split_ifs with h1 h2
  · linarith
  · push_cast
    have : (0 : ℚ) ≤ (⌊x⌋₊ % 2 : ℕ) := Nat.cast_nonneg _
    linarith
  · push_cast
    linarith

theorem nearestEven_le_add_half (hx : 0 ≤ x) : (nearestEven x : ℚ) ≤ x + 1 / 2 := by
  have hle := Nat.floor_le hx
  unfold nearestEven
  split_ifs with h1 h2
  · linarith
  · have : ((⌊x⌋₊ % 2 : ℕ) : ℚ) ≤ 1 := by exact_mod_cast (by omega : ⌊x⌋₊ % 2 ≤ 1)
    push_cast at this ⊢
    linarith
  · push_cast
    rcases lt_or_eq_of_le (not_lt.1 h1) with h | h
    · linarith
    · exact absurd h.symm h2

/-- A number closer than one half to a whole number is rounded to it. -/
theorem nearestEven_eq (hlo : (n : ℚ) - 1 / 2 < x) (hhi : x < n + 1 / 2) (hx : 0 ≤ x) :
    nearestEven x = n := by
  have h1 := sub_half_le_nearestEven x
  have h2 := nearestEven_le_add_half hx
  have h3 : (n : ℚ) < nearestEven x + 1 := by linarith
  have h4 : (nearestEven x : ℚ) < n + 1 := by linarith
  have h3' : n < nearestEven x + 1 := by exact_mod_cast h3
  have h4' : nearestEven x < n + 1 := by exact_mod_cast h4
  omega

theorem nearestEven_eq_iff (hx : 0 ≤ x) (hne : |x - n| ≠ 1 / 2) :
    nearestEven x = n ↔ |x - n| < 1 / 2 := by
  constructor
  · rintro rfl
    have h1 := sub_half_le_nearestEven x
    have h2 := nearestEven_le_add_half hx
    exact lt_of_le_of_ne (abs_le.2 ⟨by linarith, by linarith⟩) hne
  · intro h
    obtain ⟨h1, h2⟩ := abs_lt.1 h
    exact nearestEven_eq (by linarith) (by linarith) hx

@[simp] theorem nearestEven_natCast (n : ℕ) : nearestEven n = n := by
  simp [nearestEven]

theorem nearestEven_tie (n : ℕ) : nearestEven (n + 1 / 2) = n + n % 2 := by
  have hfloor : ⌊(n : ℚ) + 1 / 2⌋₊ = n := by
    rw [Nat.floor_eq_iff (by positivity)]
    constructor <;> linarith
  simp only [nearestEven, hfloor, add_sub_cancel_left, lt_irrefl, if_false, if_true]

theorem nearestEven_mono (hxy : x ≤ y) : nearestEven x ≤ nearestEven y := by
  have hfloor := Nat.floor_le_floor hxy
  rcases Nat.lt_or_eq_of_le hfloor with h | h
  · calc
      nearestEven x ≤ ⌊x⌋₊ + 1 := nearestEven_le_floor_succ x
      _ ≤ ⌊y⌋₊ := h
      _ ≤ nearestEven y := floor_le_nearestEven y
  · unfold nearestEven
    rw [← h]
    split_ifs <;> try omega
    · linarith
    · linarith
    · rename_i h1 h2 _ _
      exact absurd (le_antisymm (by linarith) (not_lt.1 h1)) h2

/-! ### The distance between floats -/

/-- The floats around `u` units are `2 ^ spacing u` units apart. -/
def spacing (u : ℚ) : ℕ := Nat.log2 ⌊u⌋₊ - 52

theorem spacing_eq (hlo : k = 0 ∨ 2 ^ (k + 52) ≤ u) (hhi : u < 2 ^ (k + 53)) (hu : 0 ≤ u) :
    spacing u = k := by
  have hfloor : ⌊u⌋₊ < 2 ^ (k + 53) := by
    rw [Nat.floor_lt hu]
    exact_mod_cast hhi
  unfold spacing
  rcases hlo with rfl | hlo
  · by_cases h0 : ⌊u⌋₊ = 0
    · simp [h0]
    · have := (Nat.log2_lt h0).2 hfloor
      omega
  · have hle : 2 ^ (k + 52) ≤ ⌊u⌋₊ := by
      rw [Nat.le_floor_iff hu]
      exact_mod_cast hlo
    have h0 : ⌊u⌋₊ ≠ 0 := by
      have := Nat.two_pow_pos (k + 52)
      omega
    rw [(Nat.log2_eq_iff h0).2 ⟨hle, by simpa [Nat.add_assoc] using hfloor⟩]
    omega

theorem lt_two_pow_spacing (u : ℚ) : u < 2 ^ (spacing u + 53) := by
  have h1 := Nat.lt_floor_add_one u
  have h2 : ⌊u⌋₊ + 1 ≤ 2 ^ (spacing u + 53) := by
    refine Nat.lt_of_lt_of_le Nat.lt_log2_self (Nat.pow_le_pow_right (by decide) ?_)
    unfold spacing
    omega
  calc
    u < ⌊u⌋₊ + 1 := h1
    _ ≤ 2 ^ (spacing u + 53) := by exact_mod_cast h2

theorem two_pow_spacing_le (hu : 0 ≤ u) : spacing u = 0 ∨ 2 ^ (spacing u + 52) ≤ u := by
  by_cases h0 : spacing u = 0
  · exact .inl h0
  · right
    have hne : ⌊u⌋₊ ≠ 0 := by
      intro h
      simp [spacing, h] at h0
    have hle : 2 ^ (spacing u + 52) ≤ ⌊u⌋₊ := by
      refine Nat.le_trans (Nat.pow_le_pow_right (by decide) ?_) (Nat.log2_self_le hne)
      unfold spacing at h0 ⊢
      omega
    calc
      (2 : ℚ) ^ (spacing u + 52) ≤ ⌊u⌋₊ := by exact_mod_cast hle
      _ ≤ u := Nat.floor_le hu

theorem spacing_mono (hxy : x ≤ y) : spacing x ≤ spacing y := by
  have hfloor := Nat.floor_le_floor hxy
  unfold spacing
  by_cases h0 : ⌊x⌋₊ = 0
  · simp [h0]
  · have hle := Nat.log2_self_le h0
    have : ⌊x⌋₊.log2 ≤ ⌊y⌋₊.log2 := by
      rw [Nat.le_log2 (by omega)]
      omega
    omega

/-! ### The nearest float -/

/-- The float nearest to `u` units, in units. -/
def roundUnits (u : ℚ) : ℕ := nearestEven (u / 2 ^ spacing u) * 2 ^ spacing u

/-- A number of units is that of a float if it has 53 binary digits, apart from zeros at the
end. -/
def Representable (n : ℕ) : Prop := ∃ m k, m ≤ 2 ^ 53 ∧ n = m * 2 ^ k

theorem roundUnits_eq (hlo : k = 0 ∨ 2 ^ (k + 52) ≤ u) (hhi : u ≤ 2 ^ (k + 53)) (hu : 0 ≤ u) :
    roundUnits u = nearestEven (u / 2 ^ k) * 2 ^ k := by
  rcases lt_or_eq_of_le hhi with hlt | rfl
  · rw [roundUnits, spacing_eq hlo hlt hu]
  · have hspacing : spacing (2 ^ (k + 53)) = k + 1 :=
      spacing_eq (.inr (le_of_eq (by ring))) (pow_lt_pow_right₀ (by norm_num) (by omega)) hu
    have h1 : (2 : ℚ) ^ (k + 53) / 2 ^ (k + 1) = (2 ^ 52 : ℕ) := by
      field_simp
      push_cast
      ring
    have h2 : (2 : ℚ) ^ (k + 53) / 2 ^ k = (2 ^ 53 : ℕ) := by
      field_simp
      push_cast
      ring
    rw [roundUnits, hspacing, h1, h2, nearestEven_natCast, nearestEven_natCast]
    ring

/-- A number with its 53 leading digits before the point is rounded to a whole one. -/
theorem roundUnits_mul_two_pow {k : ℕ} (hlo : k = 0 ∨ 2 ^ 52 ≤ x) (hx : 0 ≤ x)
    (hhi : x ≤ 2 ^ 53) : roundUnits (x * 2 ^ k) = nearestEven x * 2 ^ k := by
  have hpos : (0 : ℚ) < 2 ^ k := by positivity
  rw [roundUnits_eq (k := k), mul_div_cancel_right₀ _ hpos.ne']
  · refine hlo.imp id fun hlo => ?_
    rw [pow_add, mul_comm]
    exact mul_le_mul_of_nonneg_right hlo hpos.le
  · rw [pow_add, mul_comm _ ((2 : ℚ) ^ 53)]
    exact mul_le_mul_of_nonneg_right hhi hpos.le
  · exact mul_nonneg hx hpos.le

theorem nearestEven_spacing_le (u : ℚ) : nearestEven (u / 2 ^ spacing u) ≤ 2 ^ 53 := by
  have hlt : u / 2 ^ spacing u ≤ (2 ^ 53 : ℕ) := by
    rw [div_le_iff₀ (by positivity)]
    have := (lt_two_pow_spacing u).le
    push_cast
    linarith [pow_add (2 : ℚ) (spacing u) 53]
  exact (nearestEven_mono hlt).trans_eq (nearestEven_natCast _)

theorem le_nearestEven_spacing (hu : 0 ≤ u) :
    spacing u = 0 ∨ 2 ^ 52 ≤ nearestEven (u / 2 ^ spacing u) := by
  refine (two_pow_spacing_le hu).imp_right fun hle => ?_
  have hge : ((2 ^ 52 : ℕ) : ℚ) ≤ u / 2 ^ spacing u := by
    rw [le_div_iff₀ (by positivity)]
    push_cast
    linarith [pow_add (2 : ℚ) (spacing u) 52]
  exact (nearestEven_natCast _).symm.trans_le (nearestEven_mono hge)

theorem representable_roundUnits (u : ℚ) : Representable (roundUnits u) :=
  ⟨_, _, nearestEven_spacing_le u, rfl⟩

theorem representable_of_le (h : n ≤ 2 ^ 53) : Representable n := ⟨n, 0, h, by simp⟩

theorem Representable.mul_two_pow (h : Representable n) (j : ℕ) : Representable (n * 2 ^ j) := by
  obtain ⟨m, k, hm, rfl⟩ := h
  exact ⟨m, k + j, hm, by rw [pow_add, mul_assoc]⟩

theorem representable_two_pow (j : ℕ) : Representable (2 ^ j) := by
  simpa using (representable_of_le (n := 1) (by decide)).mul_two_pow j

/-- The number of units of a float is a multiple of the distance between the floats around it. -/
theorem Representable.dvd (h : Representable n) : 2 ^ spacing n ∣ n := by
  obtain ⟨m, k, hm, rfl⟩ := h
  by_cases hk : spacing ((m * 2 ^ k : ℕ) : ℚ) ≤ k
  · exact Dvd.dvd.mul_left (Nat.pow_dvd_pow 2 hk) m
  · rcases two_pow_spacing_le (u := ((m * 2 ^ k : ℕ) : ℚ)) (by positivity) with h0 | hle
    · omega
    -- Only the greatest `m` reaches this far, and then the number is a power of two.
    · have hle' : 2 ^ (spacing ((m * 2 ^ k : ℕ) : ℚ) + 52) ≤ m * 2 ^ k := by exact_mod_cast hle
      have hge : 2 ^ (k + 53) ≤ 2 ^ (spacing ((m * 2 ^ k : ℕ) : ℚ) + 52) :=
        Nat.pow_le_pow_right (by decide) (by omega)
      have hmk : m * 2 ^ k ≤ 2 ^ (k + 53) := by
        rw [pow_add, mul_comm (2 ^ k)]
        exact Nat.mul_le_mul_right _ hm
      have heq : 2 ^ (spacing ((m * 2 ^ k : ℕ) : ℚ) + 52) = m * 2 ^ k := by omega
      conv_rhs => rw [← heq]
      exact Nat.pow_dvd_pow 2 (by omega)

/-- A float is its own nearest float. -/
theorem Representable.roundUnits_eq (h : Representable n) : roundUnits n = n := by
  obtain ⟨q, hq⟩ := h.dvd
  have hdiv : (n : ℚ) / 2 ^ spacing n = q := by
    rw [div_eq_iff (by positivity)]
    conv_lhs => rw [hq]
    push_cast
    ring
  rw [roundUnits, hdiv, nearestEven_natCast, mul_comm]
  exact hq.symm

@[simp] theorem roundUnits_zero : roundUnits 0 = 0 := by
  simpa using (representable_of_le (n := 0) (by decide)).roundUnits_eq

theorem roundUnits_of_lt_half (hu : 0 ≤ u) (hlt : u < 1 / 2) : roundUnits u = 0 := by
  have hspacing : spacing u = 0 := by
    apply spacing_eq (.inl rfl) _ hu
    norm_num
    linarith
  have hnear : nearestEven u = 0 :=
    nearestEven_eq (by push_cast; linarith) (by push_cast; linarith) hu
  rw [roundUnits, hspacing, pow_zero, div_one, hnear, zero_mul]

theorem roundUnits_mono (hx : 0 ≤ x) (hxy : x ≤ y) : roundUnits x ≤ roundUnits y := by
  rcases Nat.lt_or_eq_of_le (spacing_mono hxy) with hlt | heq
  -- A power of two lies between the two numbers and is a float.
  · have hlow : 2 ^ 52 ≤ nearestEven (y / 2 ^ spacing y) :=
      (le_nearestEven_spacing (hx.trans hxy)).resolve_left (by omega)
    calc
      roundUnits x ≤ 2 ^ 53 * 2 ^ spacing x :=
        Nat.mul_le_mul_right _ (nearestEven_spacing_le x)
      _ = 2 ^ 52 * 2 ^ (spacing x + 1) := by ring
      _ ≤ 2 ^ 52 * 2 ^ spacing y := Nat.mul_le_mul_left _ (Nat.pow_le_pow_right (by decide) hlt)
      _ ≤ roundUnits y := Nat.mul_le_mul_right _ hlow
  · unfold roundUnits
    rw [← heq]
    exact Nat.mul_le_mul_right _ (nearestEven_mono (div_le_div_of_nonneg_right hxy (by positivity)))

/-- Zeros at the end of a whole number do not matter for rounding. -/
theorem roundUnits_natCast_mul_two_pow (n j : ℕ) :
    roundUnits ((n : ℚ) * 2 ^ j) = roundUnits n * 2 ^ j := by
  have hn : (0 : ℚ) ≤ n := Nat.cast_nonneg n
  have hpos : (0 : ℚ) < 2 ^ j := by positivity
  have hhi := lt_two_pow_spacing (n : ℚ)
  rcases two_pow_spacing_le hn with h0 | hlo
  · rw [h0] at hhi
    have hrep : Representable n := representable_of_le (by exact_mod_cast hhi.le)
    have hmul := (hrep.mul_two_pow j).roundUnits_eq
    push_cast at hmul
    rw [hmul, hrep.roundUnits_eq]
  · rw [roundUnits_eq (k := spacing (n : ℚ) + j), roundUnits, pow_add,
      mul_div_mul_right _ _ hpos.ne', pow_add, mul_assoc]
    · right
      rw [show spacing (n : ℚ) + j + 52 = spacing (n : ℚ) + 52 + j by omega, pow_add]
      exact mul_le_mul_of_nonneg_right hlo hpos.le
    · rw [show spacing (n : ℚ) + j + 53 = spacing (n : ℚ) + 53 + j by omega, pow_add]
      exact mul_le_mul_of_nonneg_right hhi.le hpos.le
    · exact mul_nonneg hn hpos.le

/-- Rounding moves a number by at most half the distance between the floats around it. -/
theorem abs_roundUnits_sub_le (hu : 0 ≤ u) : |(roundUnits u : ℚ) - u| ≤ 2 ^ spacing u / 2 := by
  have hpos : (0 : ℚ) < 2 ^ spacing u := by positivity
  have h1 := sub_half_le_nearestEven (u / 2 ^ spacing u)
  have h2 := nearestEven_le_add_half (x := u / 2 ^ spacing u) (by positivity)
  have hmul : u / 2 ^ spacing u * 2 ^ spacing u = u := div_mul_cancel₀ _ hpos.ne'
  have h1' := mul_le_mul_of_nonneg_right h1 hpos.le
  have h2' := mul_le_mul_of_nonneg_right h2 hpos.le
  rw [sub_mul, hmul] at h1'
  rw [add_mul, hmul] at h2'
  unfold roundUnits
  push_cast
  rw [abs_le]
  constructor <;> linarith

/-- On the grid of the floats around it a number is rounded to the multiple next to it. -/
theorem roundUnits_eq_mul (hlo : k = 0 ∨ 2 ^ (k + 52) ≤ u) (hhi : u ≤ 2 ^ (k + 53)) (hu : 0 ≤ u)
    (hnear : |u - m * 2 ^ k| < 2 ^ k / 2) : roundUnits u = m * 2 ^ k := by
  have hpos : (0 : ℚ) < 2 ^ k := by positivity
  obtain ⟨h1, h2⟩ := abs_lt.1 hnear
  have hm : nearestEven (u / 2 ^ k) = m := by
    apply nearestEven_eq
    · rw [lt_div_iff₀ hpos]
      linarith
    · rw [div_lt_iff₀ hpos]
      linarith
    · positivity
  rw [roundUnits_eq hlo hhi hu, hm]

/-- A float that lies close above a number which is less than a power of two, but is no less
itself, is that power. -/
theorem eq_two_pow_of_close {m j : ℕ} (hle : (2 : ℚ) ^ (j + 1) * 2 ^ 52 ≤ m * 2 ^ (j + 1))
    (hlow : u < 2 ^ (j + 1) * 2 ^ 52)
    (hclose : m * 2 ^ (j + 1) - u < (m * 2 ^ (j + 1)) / 2 ^ 54) : m = 2 ^ 52 := by
  have hpos : (0 : ℚ) < 2 ^ (j + 1) := by positivity
  have hge : (2 : ℚ) ^ 52 * 2 ^ (j + 1) ≤ m * 2 ^ (j + 1) := by linarith
  have hless : (m : ℚ) * 2 ^ (j + 1) < (2 ^ 52 + 1) * 2 ^ (j + 1) := by linarith
  have hge' : 2 ^ 52 ≤ m := by exact_mod_cast le_of_mul_le_mul_right hge hpos
  have hless' : m < 2 ^ 52 + 1 := by exact_mod_cast lt_of_mul_lt_mul_right hless hpos.le
  omega

/-- A number is rounded to a float from which it differs, relatively, by less than `2 ^ -54`. -/
theorem Representable.roundUnits_eq_of_abs_sub_lt (h : Representable n)
    (hclose : |u - n| < n / 2 ^ 54) : roundUnits u = n := by
  obtain ⟨m, hm⟩ := h.dvd
  generalize hk : spacing (n : ℚ) = k at hm
  have hpos : (0 : ℚ) < 2 ^ k := by positivity
  have hn : (n : ℚ) = m * 2 ^ k := by rw [hm]; push_cast; ring
  have hn0 : (0 : ℚ) ≤ n := Nat.cast_nonneg n
  have hlt := lt_two_pow_spacing (n : ℚ)
  have hle := two_pow_spacing_le hn0
  rw [hk, pow_add] at hlt hle
  obtain ⟨hlo, hhi⟩ := abs_lt.1 hclose
  have hu : 0 ≤ u := by linarith
  have hmlt : (m : ℚ) * 2 ^ k + 2 ^ k ≤ 2 ^ k * 2 ^ 53 := by
    have h1 : (m : ℚ) * 2 ^ k < 2 ^ 53 * 2 ^ k := by rw [← hn, mul_comm]; exact hlt
    have h2 : m + 1 ≤ 2 ^ 53 := by exact_mod_cast lt_of_mul_lt_mul_right h1 hpos.le
    have h3 : (m : ℚ) + 1 ≤ 2 ^ 53 := by exact_mod_cast h2
    linarith [mul_le_mul_of_nonneg_left h3 hpos.le]
  by_cases hlow : k = 0 ∨ 2 ^ (k + 52) ≤ u
  · rw [hm, mul_comm]
    refine roundUnits_eq_mul hlow ?_ hu (abs_lt.2 ?_)
    · rw [pow_add]
      linarith
    · constructor <;> linarith
  -- Just below a power of two the floats lie twice as close.
  · rw [not_or, not_le, pow_add] at hlow
    obtain ⟨j, rfl⟩ : ∃ j, k = j + 1 := ⟨k - 1, by omega⟩
    have hle := hle.resolve_left hlow.1
    rw [hn] at hle
    obtain rfl := eq_two_pow_of_close hle hlow.2 (by rw [← hn]; linarith)
    have hn' : (n : ℚ) = 2 ^ 53 * 2 ^ j := by
      rw [hn, pow_succ]
      push_cast
      ring
    have hjpos : (0 : ℚ) < 2 ^ j := by positivity
    have hround := roundUnits_eq_mul (u := u) (m := 2 ^ 53) (k := j) (.inr ?_) ?_ hu ?_
    · rw [hround]
      exact_mod_cast hn'.symm
    · rw [pow_add]
      linarith
    · have := hlow.2.le
      rw [pow_succ] at this
      rw [pow_add]
      linarith
    · rw [abs_lt]
      push_cast
      constructor <;> linarith

end KeypadCalc.Binary64
