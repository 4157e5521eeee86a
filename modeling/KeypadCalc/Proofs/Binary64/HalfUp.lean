import KeypadCalc.Proofs.Binary64.Accuracy
import KeypadCalc.Proofs.Binary64.Comparing

/-! Rounding a float to a whole number, halves going up. What a float is above the whole number
below it is rounded when it is computed, but never up to a half: if it is less than a half, it is
exact. Main statement: the result is the whole number that the float lies around. -/

namespace KeypadCalc.Binary64

variable {x v : Float} {b : Bool} {m n : ℕ} {q : ℤ}

/-! ### Whole floats -/

/-- What is on the grid of a float and not greater is a float as well. -/
theorem representable_of_dvd (hm : 2 ^ spacing n ∣ m) (hle : m ≤ n) : Representable m := by
  obtain ⟨i, rfl⟩ := hm
  have hpos : 0 < 2 ^ spacing (n : ℚ) := by positivity
  have hlt : n < 2 ^ spacing (n : ℚ) * 2 ^ 53 := by
    have := lt_two_pow_spacing (n : ℚ)
    rw [pow_add] at this
    exact_mod_cast this
  have hi : i ≤ 2 ^ 53 := (Nat.lt_of_mul_lt_mul_left (hle.trans_lt hlt)).le
  rw [mul_comm]
  exact (representable_of_le hi).mul_two_pow _

/-- From `2 ^ 52` on all floats are whole. -/
theorem Representable.one_dvd (h : Representable n) (hle : 2 ^ 52 * one ≤ n) : one ∣ n := by
  obtain ⟨k, -, hone⟩ := exists_one_eq (Nat.zero_le 1074)
  rw [pow_zero, one_mul] at hone
  rw [hone] at hle ⊢
  clear hone
  have hspacing : spacing ((2 ^ 52 * 2 ^ k : ℕ) : ℚ) = k := by
    rw [Nat.cast_mul, Nat.cast_pow, Nat.cast_pow, Nat.cast_ofNat, ← pow_add, add_comm]
    exact spacing_eq (.inr le_rfl) (pow_lt_pow_right₀ (by norm_num) (by omega)) (by positivity)
  have hk : k ≤ spacing (n : ℚ) := hspacing.symm.trans_le (spacing_mono (by exact_mod_cast hle))
  exact (Nat.pow_dvd_pow 2 hk).trans h.dvd

theorem parts_ofUnits (b : Bool) (hn : n ≤ 2 ^ 53) :
    (ofUnits b (n * one)).isFinite = true ∧ isNegative (ofUnits b (n * one)) = b ∧
      units (ofUnits b (n * one)) = n * one := by
  have hround : roundUnits ((n : ℚ) * one) = n * one := by
    rw [roundUnits_natCast_mul_one, (representable_of_le hn).roundUnits_eq]
  have hlimit : roundUnits ((n : ℚ) * one) < limit := by
    rw [hround]
    exact mul_one_lt_limit (j := 54) (hn.trans_lt (by decide)) (by decide)
  rw [ofUnits_eq_rounded]
  push_cast
  exact ⟨isFinite_rounded.2 hlimit, isNegative_rounded, (units_rounded hlimit).trans hround⟩

theorem parts_roundedInt (b : Bool) {n : ℤ} (hn : n.natAbs ≤ 2 ^ 53) :
    (roundedInt b (n * one)).isFinite = true ∧ count (roundedInt b (n * one)) = n * one ∧
      (n = 0 → isNegative (roundedInt b (n * one)) = b) := by
  have hone : (0 : ℤ) < one := by exact_mod_cast one_pos
  have hzero : n * one = 0 ↔ n = 0 := by rw [mul_eq_zero, or_iff_left hone.ne']
  have hneg : n * one < 0 ↔ n < 0 := by
    rw [mul_neg_iff]
    omega
  have habs : (n * one).natAbs = n.natAbs * one := by rw [Int.natAbs_mul, Int.natAbs_natCast]
  obtain ⟨hfinite, hsign, hunits⟩ := parts_ofUnits (if n = 0 then b else decide (n < 0)) hn
  rw [ofUnits_eq_rounded] at hfinite hsign hunits
  simp only [roundedInt, hzero, hneg, habs]
  refine ⟨hfinite, ?_, fun h0 => by rw [hsign, if_pos h0]⟩
  rw [count, hsign, hunits]
  rcases lt_trichotomy n 0 with h | rfl | h
  · rw [if_neg h.ne, decide_eq_true h, if_pos rfl, Nat.cast_mul, ← neg_mul]
    congr 1
    omega
  · rw [Int.natAbs_zero, Nat.zero_mul, zero_mul, if_pos rfl]
    cases b <;> rfl
  · rw [if_neg h.ne', decide_eq_false h.not_gt, if_neg (by decide), Nat.cast_mul]
    congr 1
    omega

/-! ### The whole number below -/

theorem units_lt_of_not_isWhole (hx : x.isFinite = true) (hwhole : isWhole x = false) :
    ¬one ∣ units x ∧ units x < 2 ^ 52 * one := by
  have hdvd : ¬one ∣ units x := by
    intro hdvd
    rw [isWhole, hx, Nat.mod_eq_zero_of_dvd hdvd] at hwhole
    cases hwhole
  exact ⟨hdvd, not_le.1 fun hle => hdvd ((representable_units hx).one_dvd hle)⟩

/-- A float that is not whole lies between the whole number that is its floor and the next. -/
theorem floor_spec (hx : x.isFinite = true) (hwhole : isWhole x = false) :
    ∃ q : ℤ, (floor x).isFinite = true ∧ isNegative (floor x) = decide (q < 0) ∧
      count (floor x) = q * one ∧ q * one < count x ∧ count x < (q + 1) * one ∧
      -2 ^ 52 ≤ q ∧ q < 2 ^ 52 := by
  obtain ⟨hdvd, hlt⟩ := units_lt_of_not_isWhole hx hwhole
  have hone := one_pos
  have hq : units x / one < 2 ^ 52 := (Nat.div_lt_iff_lt_mul hone).2 hlt
  have hmod : 0 < units x % one := Nat.pos_of_ne_zero fun h0 => hdvd (Nat.dvd_of_mod_eq_zero h0)
  have hmod' := Nat.mod_lt (units x) hone
  have hsplit := Nat.div_add_mod' (units x) one
  have hbranch : (!x.isFinite || isWhole x) = false := by rw [hx, hwhole]; rfl
  rw [floor, if_neg (by rw [hbranch]; decide)]
  unfold count
  cases hneg : isNegative x with
  | true =>
    obtain ⟨hfinite, hsign, hunits⟩ := parts_ofUnits true (n := units x / one + 1) (by omega)
    refine ⟨-(units x / one + 1 : ℕ), ?_⟩
    simp only [if_true, hfinite, hsign, hunits]
    generalize one = w at *
    generalize units x / w = i at *
    zify at hsplit hmod hmod' ⊢
    refine ⟨trivial, (decide_eq_true (by omega)).symm, by ring, ?_, ?_, by omega, by omega⟩ <;>
      linarith
  | false =>
    obtain ⟨hfinite, hsign, hunits⟩ := parts_ofUnits false (n := units x / one) (by omega)
    refine ⟨(units x / one : ℕ), ?_⟩
    simp only [Bool.false_eq_true, if_false, hfinite, hsign, hunits]
    generalize one = w at *
    generalize units x / w = i at *
    zify at hsplit hmod hmod' ⊢
    refine ⟨trivial, by simp, trivial, ?_, ?_, by omega, by omega⟩ <;> linarith

/-! ### What is left above it -/

theorem half_parts : (0.5 : Float).isFinite = true ∧ isNegative 0.5 = false ∧
    2 * units 0.5 = one := by
  decide +kernel

theorem one_parts : (1.0 : Float).isFinite = true ∧ isNegative 1.0 = false ∧
    count 1.0 = one := by
  decide +kernel

theorem natCast_dvd_count {k : ℕ} (h : k ∣ units x) : (k : ℤ) ∣ count x := by
  have hdvd := Int.natCast_dvd_natCast.2 h
  unfold count
  split
  · exact dvd_neg.2 hdvd
  · exact hdvd

theorem two_pow_spacing_dvd_one (hlt : units x < 2 ^ 52 * one) : 2 ^ spacing (units x) ∣ one := by
  obtain ⟨k, -, hk⟩ := exists_one_eq (Nat.zero_le 1074)
  rw [pow_zero, one_mul] at hk
  rw [hk, ← pow_add] at hlt
  rw [hk]
  refine Nat.pow_dvd_pow 2 ?_
  rcases two_pow_spacing_le (u := units x) (Nat.cast_nonneg _) with h0 | hle
  · omega
  · have hle' : 2 ^ (spacing (units x) + 52) ≤ units x := by exact_mod_cast hle
    have hpow := (Nat.pow_lt_pow_iff_right (by decide : 1 < 2)).1 (hle'.trans_lt hlt)
    omega

/-- What is left is not greater than the float; below zero that is so if less than a half is. -/
theorem natAbs_sub_floor_le (hpos : q * one < count x) (hless : 2 * (count x - q * one) < one) :
    (count x - q * one).natAbs ≤ units x := by
  have hone := one_pos
  unfold count at hpos hless ⊢
  generalize one = w at *
  split at hpos <;> rename_i hneg
  · simp only [hneg, if_true] at hless ⊢
    have hq : q ≤ -1 := by
      by_contra hq
      have hnonneg : 0 ≤ q * w := mul_nonneg (by omega) (by omega)
      omega
    have hqw : q * w ≤ -1 * w := mul_le_mul_of_nonneg_right hq (by omega)
    omega
  · simp only [hneg, Bool.false_eq_true, if_false] at hless ⊢
    have hq : 0 ≤ q := by
      by_contra hq
      have hle : q * w ≤ -1 * w := mul_le_mul_of_nonneg_right (by omega) (by omega)
      omega
    have hqw : 0 ≤ q * w := mul_nonneg hq (by omega)
    omega

/-- If less than a half is left, it is a float. -/
theorem representable_sub_floor (hx : x.isFinite = true) (hlt : units x < 2 ^ 52 * one)
    (hpos : q * one < count x) (hless : 2 * (count x - q * one) < one) :
    Representable (count x - q * one).natAbs := by
  have hone : ((2 ^ spacing (units x) : ℕ) : ℤ) ∣ one :=
    Int.natCast_dvd_natCast.2 (two_pow_spacing_dvd_one hlt)
  have hcount := natCast_dvd_count (representable_units hx).dvd
  exact representable_of_dvd (Int.natCast_dvd.1 (dvd_sub hcount (hone.mul_left q)))
    (natAbs_sub_floor_le hpos hless)

theorem half_le_rounded_iff {z : ℕ} (hz : z < one) (hexact : 2 * z < one → Representable z) :
    (0.5 : Float) ≤ rounded false z ↔ one ≤ 2 * z := by
  obtain ⟨hfinite, hsign, hunits⟩ := half_parts
  have hlimit : roundUnits z < limit :=
    roundUnits_lt_limit (j := 0) (Nat.cast_nonneg z) (by exact_mod_cast (by omega)) (by decide)
  rw [le_iff_units_le hfinite (isFinite_rounded.2 hlimit) hsign isNegative_rounded,
    units_rounded hlimit]
  constructor
  · intro hle
    by_contra hless
    rw [(hexact (not_le.1 hless)).roundUnits_eq] at hle
    omega
  · intro hle
    rw [← roundUnits_units hfinite]
    exact roundUnits_mono (Nat.cast_nonneg _) (by exact_mod_cast (by omega))

/-! ### Halves going up -/

theorem half_le_toRat_sub_iff {n : ℤ} :
    1 / 2 ≤ toRat x - n ↔ (one : ℤ) ≤ 2 * (count x - n * one) := by
  have hone := one_cast_pos
  rw [toRat, le_sub_iff_add_le, le_div_iff₀ hone, add_mul]
  generalize one = w
  rw [← Int.cast_le (R := ℚ)]
  push_cast
  constructor <;> intro h <;> linarith

theorem toRat_eq_intCast_iff {n : ℤ} : toRat x = n ↔ count x = n * one := by
  rw [toRat, div_eq_iff one_cast_pos.ne']
  exact_mod_cast Iff.rfl

theorem floor_toRat_eq (hlow : q * one ≤ count x) (hhigh : count x < (q + 1) * one) :
    ⌊toRat x⌋ = q := by
  have hone := one_cast_pos
  rw [Int.floor_eq_iff, toRat, le_div_iff₀ hone, div_lt_iff₀ hone]
  exact ⟨by exact_mod_cast hlow, by exact_mod_cast hhigh⟩

theorem exists_count_eq_of_isWhole (hwhole : isWhole x = true) : ∃ n : ℤ, count x = n * one := by
  rw [isWhole, Bool.and_eq_true, beq_iff_eq] at hwhole
  obtain ⟨n, hn⟩ := natCast_dvd_count (Nat.dvd_of_mod_eq_zero hwhole.2)
  exact ⟨n, hn.trans (mul_comm _ _)⟩

theorem sub_floor_eq (hx : x.isFinite = true) (hfinite : (floor x).isFinite = true)
    (hcount : count (floor x) = q * one) (hlow : q * one < count x) :
    x - floor x = rounded false ((count x - q * one).natAbs : ℕ) := by
  rw [sub_eq_add_neg_float hx hfinite, add_eq_rounded hx (isFinite_neg hfinite),
    count_neg hfinite, hcount, ← sub_eq_add_neg, roundedInt, if_neg (by omega),
    decide_eq_false (by omega)]

/-- The floor of a float is exact. It is negative zero only if the float is. -/
theorem floor_exact (hx : x.isFinite = true) :
    (floor x).isFinite = true ∧ count (floor x) = ⌊toRat x⌋ * one ∧
      (isNegative (floor x) = true → ⌊toRat x⌋ = 0 → units x = 0 ∧ isNegative x = true) := by
  cases hwhole : isWhole x with
  | true =>
    obtain ⟨n, hn⟩ := exists_count_eq_of_isWhole hwhole
    rw [floor_of_isWhole hwhole, toRat_eq_intCast_iff.2 hn, Int.floor_intCast]
    refine ⟨hx, hn, fun hneg h0 => ⟨?_, hneg⟩⟩
    rw [h0, zero_mul, count, if_pos hneg] at hn
    omega
  | false =>
    obtain ⟨q, hfinite, hsign, hcount, hlow, hhigh, -⟩ := floor_spec hx hwhole
    rw [floor_toRat_eq hlow.le hhigh]
    refine ⟨hfinite, hcount, fun hneg h0 => ?_⟩
    rw [hsign, h0] at hneg
    cases hneg

/-- What is left above the floor is rounded, but to the same side of a half. -/
theorem half_le_sub_floor_iff (hx : x.isFinite = true) :
    (0.5 : Float) ≤ x - floor x ↔ 1 / 2 ≤ toRat x - ⌊toRat x⌋ := by
  cases hwhole : isWhole x with
  | true =>
    obtain ⟨n, hn⟩ := exists_count_eq_of_isWhole hwhole
    rw [floor_of_isWhole hwhole, sub_self_float hx, toRat_eq_intCast_iff.2 hn, Int.floor_intCast,
      sub_self]
    exact iff_of_false (by decide) (by norm_num)
  | false =>
    obtain ⟨q, hfinite, -, hcount, hlow, hhigh, -⟩ := floor_spec hx hwhole
    obtain ⟨-, hlt⟩ := units_lt_of_not_isWhole hx hwhole
    rw [floor_toRat_eq hlow.le hhigh]
    rw [add_mul, one_mul] at hhigh
    have hhalf := half_le_rounded_iff (z := (count x - q * one).natAbs) (by omega) fun hless =>
      representable_sub_floor hx hlt hlow (by omega)
    rw [sub_floor_eq hx hfinite hcount hlow, hhalf, half_le_toRat_sub_iff]
    omega

/-- Where one is added to the floor the sum is exact, and it is no negative zero. -/
theorem floor_add_one_exact (hx : x.isFinite = true) (h : (0.5 : Float) ≤ x - floor x) :
    (floor x + 1.0).isFinite = true ∧ count (floor x + 1.0) = (⌊toRat x⌋ + 1) * one ∧
      (isNegative (floor x + 1.0) = true → ⌊toRat x⌋ + 1 ≠ 0) := by
  cases hwhole : isWhole x with
  | true =>
    obtain ⟨n, hn⟩ := exists_count_eq_of_isWhole hwhole
    rw [half_le_sub_floor_iff hx, toRat_eq_intCast_iff.2 hn, Int.floor_intCast, sub_self] at h
    norm_num at h
  | false =>
    obtain ⟨q, hfinite, -, hcount, hlow, hhigh, hmin, hmax⟩ := floor_spec hx hwhole
    obtain ⟨hone, hpos, hcount'⟩ := one_parts
    have hsum : floor x + 1.0 =
        roundedInt (isNegative (floor x) && isNegative 1.0) ((q + 1) * one) := by
      rw [add_eq_rounded hfinite hone, hcount, hcount', add_mul, one_mul]
    obtain ⟨hfinite', hcount'', hzero⟩ :=
      parts_roundedInt (isNegative (floor x) && isNegative 1.0) (n := q + 1) (by omega)
    rw [floor_toRat_eq hlow.le hhigh, hsum]
    refine ⟨hfinite', hcount'', fun hneg h0 => ?_⟩
    rw [hzero h0, hpos, Bool.and_false] at hneg
    cases hneg

/-- The result is the whole number around which the float lies, a half below included and a half
above excluded. It is negative zero only if the float is. -/
theorem halfUp_spec (hx : x.isFinite = true) :
    ∃ n : ℤ, (halfUp x).isFinite = true ∧ count (halfUp x) = n * one ∧
      n - 1 / 2 ≤ toRat x ∧ toRat x < n + 1 / 2 ∧
      (isNegative (halfUp x) = true → n = 0 → units x = 0 ∧ isNegative x = true) := by
  have hlow := Int.floor_le (toRat x)
  have hhigh := Int.lt_floor_add_one (toRat x)
  have hhalf := half_le_sub_floor_iff hx
  by_cases h : (0.5 : Float) ≤ x - floor x
  · obtain ⟨hfinite, hcount, hsign⟩ := floor_add_one_exact hx h
    have hle := hhalf.1 h
    rw [halfUp, if_pos h]
    refine ⟨⌊toRat x⌋ + 1, hfinite, hcount, ?_, ?_, fun hneg h0 => absurd h0 (hsign hneg)⟩
    · push_cast
      linarith
    · push_cast
      linarith
  · obtain ⟨hfinite, hcount, hsign⟩ := floor_exact hx
    have hless := not_le.1 (mt hhalf.2 h)
    rw [halfUp, if_neg h]
    exact ⟨⌊toRat x⌋, hfinite, hcount, by linarith, by linarith, hsign⟩

theorem eq_of_around {m n : ℤ} {r : ℚ} (hm : m - 1 / 2 ≤ r ∧ r < m + 1 / 2)
    (hn : n - 1 / 2 ≤ r ∧ r < n + 1 / 2) : m = n := by
  have hlt : (m : ℚ) < n + 1 := by linarith [hm.1, hn.2]
  have hlt' : (n : ℚ) < m + 1 := by linarith [hn.1, hm.2]
  norm_cast at hlt hlt'
  omega

/-- A finite float is rounded to the one whole number that it lies around in exact arithmetic, a
half below included and a half above excluded. None of the steps goes wrong by its rounding: the
floor is exact, what is left above it is on the side of a half on which it is exactly, and where one
is added the sum is exact. -/
theorem halfUp_exact (hx : x.isFinite = true) :
    (halfUp x).isFinite = true ∧
    (∃ n : ℤ, toRat (halfUp x) = n ∧
      ∀ m : ℤ, (m - 1 / 2 ≤ toRat x ∧ toRat x < m + 1 / 2) ↔ m = n) ∧
    toRat (floor x) = ⌊toRat x⌋ ∧
    ((0.5 : Float) ≤ x - floor x ↔ 1 / 2 ≤ toRat x - ⌊toRat x⌋) ∧
    ((0.5 : Float) ≤ x - floor x → toRat (floor x + 1.0) = ⌊toRat x⌋ + 1) := by
  obtain ⟨n, hfinite, hcount, hlow, hhigh, -⟩ := halfUp_spec hx
  refine ⟨hfinite, ⟨n, toRat_eq_intCast_iff.2 hcount, fun m => ⟨fun hm => ?_, ?_⟩⟩,
    toRat_eq_intCast_iff.2 (floor_exact hx).2.1, half_le_sub_floor_iff hx, fun h => ?_⟩
  · exact eq_of_around hm ⟨hlow, hhigh⟩
  · rintro rfl
    exact ⟨hlow, hhigh⟩
  · exact_mod_cast toRat_eq_intCast_iff.2 (floor_add_one_exact hx h).2.1

/-- The smallest float below zero is `1 - 2 ^ -1074` above its floor, which is rounded to one. -/
theorem halfUp_exact_below_zero :
    let x : Float := .ofBits 0x8000000000000001
    x.isFinite = true ∧ x - floor x = 1.0 ∧ toRat x - ⌊toRat x⌋ ≠ 1 ∧ toRat (halfUp x) = 0 := by
  intro x
  have hx : x.isFinite = true := by decide +kernel
  have hcount : count x = -1 := by decide +kernel
  have hone : (2 : ℚ) < one := by exact_mod_cast (by decide +kernel : 2 < one)
  have hpos : 0 < 1 / (one : ℚ) := by positivity
  have hlt : 1 / (one : ℚ) < 1 / 2 := one_div_lt_one_div_of_lt (by norm_num) hone
  have hrat : toRat x = -(1 / one) := by
    rw [toRat, hcount]
    push_cast
    ring
  have hfloor : ⌊toRat x⌋ = -1 := by
    rw [Int.floor_eq_iff, hrat]
    push_cast
    constructor <;> linarith
  obtain ⟨-, ⟨n, hn, hnearest⟩, -⟩ := halfUp_exact hx
  obtain rfl : 0 = n := by
    refine (hnearest 0).1 ?_
    rw [hrat]
    push_cast
    constructor <;> linarith
  refine ⟨hx, by decide +kernel, ?_, by exact_mod_cast hn⟩
  rw [hfloor, hrat]
  push_cast
  intro heq
  linarith

end KeypadCalc.Binary64
