import KeypadCalc.Decimal.Shortest
import KeypadCalc.Proofs.Decimal.Nearest

/-! The shortest decimal of a float reads back as that float. Seventeen digits always do: on their
grid a neighbour of the exact value is relatively closer to it than `2 ^ -54`. -/

namespace KeypadCalc.Decimal

open Binary64

variable {d : Decimal} {v : Float} {tie : Tie}

/-! ### Counting digits -/

theorem length_toDigits_div {n j : ℕ} (h : 10 ^ j ≤ n) :
    (Nat.toDigits 10 n).length = (Nat.toDigits 10 (n / 10 ^ j)).length + j := by
  have hpos := Nat.length_toDigits_pos (b := 10) (n := n / 10 ^ j)
  have hpos' := Nat.length_toDigits_pos (b := 10) (n := n)
  have hle : ∀ k, 0 < k → ((Nat.toDigits 10 n).length ≤ k + j ↔
      (Nat.toDigits 10 (n / 10 ^ j)).length ≤ k) := by
    intro k hk
    rw [Nat.length_toDigits_le_iff (by decide) (by omega),
      Nat.length_toDigits_le_iff (by decide) hk, Nat.div_lt_iff_lt_mul (by positivity), pow_add]
  have hlong : j < (Nat.toDigits 10 n).length := by
    by_contra hshort
    rcases Nat.eq_zero_or_pos j with rfl | hj
    · omega
    · have := (Nat.length_toDigits_le_iff (n := n) (b := 10) (by decide) hj).1 (by omega)
      omega
  have h1 := (hle _ hpos).2 le_rfl
  have h2 := (hle ((Nat.toDigits 10 n).length - j) (by omega)).1 (by omega)
  omega

/-- Counting the digits in bunches counts all of them. -/
theorem digitCount_eq (n : ℕ) : digitCount n = (Nat.toDigits 10 n).length := by
  induction n using Nat.strong_induction_on with
  | _ n ih =>
    rw [digitCount]
    split
    · rename_i h
      rw [ih _ (Nat.div_lt_self (Nat.lt_of_lt_of_le (by decide) h) (by decide))]
      exact (length_toDigits_div h).symm
    · rfl

theorem lt_pow_digitCount (n : ℕ) : n < 10 ^ digitCount n := by
  rw [digitCount_eq, ← Nat.length_toDigits_le_iff (by decide) Nat.length_toDigits_pos]

theorem pow_digitCount_le {n : ℕ} (hn : n ≠ 0) : 10 ^ (digitCount n - 1) ≤ n := by
  rw [digitCount_eq]
  by_contra h
  rcases Nat.eq_zero_or_pos ((Nat.toDigits 10 n).length - 1) with h0 | hpos
  · rw [h0] at h
    omega
  · have := (Nat.length_toDigits_le_iff (n := n) (b := 10) (by decide) hpos).2 (not_le.1 h)
    omega

/-! ### Reading back -/

/-- A decimal reads back as a finite float if it is rounded to the units of that float. -/
theorem readsBack_iff (hv : v.isFinite = true) :
    readsBack v d = true ↔ roundUnits (d.value * one) = units v := by
  rw [readsBack, decide_eq_true_eq, toFloat_eq_rounded, abs_eq_rounded hv,
    rounded_eq_rounded_iff, roundUnits_units hv]
  rw [roundUnits_units hv]
  exact units_lt_limit hv

theorem value_trimZeros (d : Decimal) : (trimZeros d).value = d.value := by
  fun_induction trimZeros d with
  | case1 d h ih =>
    rw [ih]
    obtain ⟨s, e⟩ := d
    obtain ⟨q, rfl⟩ : ∃ q, s = 10 * q := ⟨s / 10, by simp only at h; omega⟩
    simp only [value]
    rw [Nat.mul_div_cancel_left _ (by decide), zpow_add₀ (by norm_num)]
    push_cast
    ring
  | case2 => rfl

theorem significand_trimZeros_le (d : Decimal) : (trimZeros d).significand ≤ d.significand := by
  fun_induction trimZeros d with
  | case1 d h ih => exact ih.trans (Nat.div_le_self _ _)
  | case2 => exact le_rfl

/-! ### Grids -/

theorem one_eq_pow : (one : ℚ) = 2 ^ places := by
  rw [one_eq_zpow, show (1074 : ℤ) = (places : ℕ) from rfl, zpow_natCast]

theorem scaled_eq (v : Float) : scaled v = units v * 5 ^ places := by
  unfold scaled
  generalize places = k
  rfl

theorem mul_pow_div_pow (u k : ℕ) : ((u * 5 ^ k : ℕ) : ℚ) / 5 ^ k = u := by
  push_cast
  field_simp

theorem scaled_div (v : Float) : (scaled v : ℚ) / 5 ^ places = units v := by
  rw [scaled_eq, mul_pow_div_pow]

theorem grid_eq (q dropped k : ℕ) :
    (q : ℚ) * 10 ^ ((dropped : ℤ) - k) * 2 ^ k = (q * 10 ^ dropped : ℕ) / 5 ^ k := by
  have hten : (10 : ℚ) ^ k = 2 ^ k * 5 ^ k := by
    rw [← mul_pow]
    norm_num
  rw [zpow_sub₀ (by norm_num), zpow_natCast, zpow_natCast, hten]
  push_cast
  field_simp

/-- A decimal on a grid, in units. -/
theorem value_mul_one (q dropped : ℕ) :
    (⟨q, dropped - places⟩ : Decimal).value * one = (q * 10 ^ dropped : ℕ) / 5 ^ places := by
  rw [one_eq_pow, value, grid_eq]

theorem close_of_scaled {a b k : ℕ} (h : |(a : ℤ) - b| * 2 ^ 54 < b) :
    |(a : ℚ) / 5 ^ k - b / 5 ^ k| < b / 5 ^ k / 2 ^ 54 := by
  have hpos : (0 : ℚ) < 5 ^ k := by positivity
  have h' : |(a : ℚ) - b| * 2 ^ 54 < b := by exact_mod_cast h
  rw [← sub_div, abs_div, abs_of_pos hpos, div_div, mul_comm ((5 : ℚ) ^ k), ← div_div]
  refine div_lt_div_of_pos_right ?_ hpos
  rwa [lt_div_iff₀ (by norm_num)]

/-- A decimal on a grid that is relatively close to the exact value reads back. -/
theorem readsBack_of_close (hv : v.isFinite = true) {q dropped : ℕ}
    (hclose : |((q * 10 ^ dropped : ℕ) : ℤ) - scaled v| * 2 ^ 54 < scaled v) :
    readsBack v ⟨q, dropped - places⟩ = true := by
  rw [readsBack_iff hv, value_mul_one]
  apply (representable_units hv).roundUnits_eq_of_abs_sub_lt
  rw [← scaled_div v]
  exact close_of_scaled hclose

/-! ### The search -/

theorem nearer?_eq_some {a b takes : Bool} {lower upper : Decimal}
    (h : nearer? a b takes lower upper = some d) :
    a = true ∧ d = lower ∨ b = true ∧ d = upper := by
  cases a <;> cases b <;> cases takes <;> simp_all [nearer?]

theorem nearer?_ne_none {a b takes : Bool} {lower upper : Decimal} (h : a = true ∨ b = true) :
    nearer? a b takes lower upper ≠ none := by
  cases a <;> cases b <;> simp_all [nearer?]

theorem onGrid?_eq_some {dropped : ℕ} (h : onGrid? tie v dropped = some d) :
    readsBack v d = true ∧ d.significand ≤ scaled v / 10 ^ dropped + 1 := by
  rcases nearer?_eq_some h with ⟨hlower, rfl⟩ | ⟨hupper, rfl⟩
  · exact ⟨hlower, Nat.le_succ _⟩
  · exact ⟨hupper, le_rfl⟩

theorem onGrid?_ne_none {dropped : ℕ}
    (h : readsBack v ⟨scaled v / 10 ^ dropped, dropped - places⟩ = true ∨
      readsBack v ⟨scaled v / 10 ^ dropped + 1, dropped - places⟩ = true) :
    onGrid? tie v dropped ≠ none :=
  nearer?_ne_none h

/-- The nearer one of two neighbours on a grid of a fine step is relatively close. -/
theorem close_of_step {value step : ℕ} (hpos : 0 < value)
    (hstep : step = 1 ∨ 0 < step ∧ step * 2 ^ 53 < value) :
    |((value / step * step : ℕ) : ℤ) - value| * 2 ^ 54 < value ∨
      |(((value / step + 1) * step : ℕ) : ℤ) - value| * 2 ^ 54 < value := by
  rcases hstep with rfl | ⟨hstep, hfine⟩
  · left
    simpa using hpos
  · have hsplit := Nat.div_add_mod' value step
    have hmod := Nat.mod_lt value hstep
    rw [add_mul, one_mul]
    generalize value / step * step = q at *
    generalize value % step = r at *
    rcases Nat.lt_or_ge (2 * r) step with hlow | hhigh
    · left
      rw [abs_of_nonpos (by omega)]
      omega
    · right
      rw [abs_of_nonneg (by omega)]
      push_cast
      omega

/-- Seventeen digits are enough. -/
theorem onGrid?_seventeen (tie : Tie) (hv : v.isFinite = true) (h0 : units v ≠ 0) :
    onGrid? tie v (digitCount (scaled v) - 17) ≠ none := by
  have hne : scaled v ≠ 0 := by
    rw [scaled_eq]
    exact Nat.mul_ne_zero h0 (by positivity)
  have hlarge := pow_digitCount_le hne
  have hstep : 10 ^ (digitCount (scaled v) - 17) = 1 ∨ 0 < 10 ^ (digitCount (scaled v) - 17) ∧
      10 ^ (digitCount (scaled v) - 17) * 2 ^ 53 < scaled v := by
    rcases Nat.lt_or_ge 17 (digitCount (scaled v)) with hlong | hshort
    · right
      refine ⟨by positivity, ?_⟩
      calc
        10 ^ (digitCount (scaled v) - 17) * 2 ^ 53 <
            10 ^ (digitCount (scaled v) - 17) * 10 ^ 16 :=
          Nat.mul_lt_mul_of_pos_left (by decide) (by positivity)
        _ = 10 ^ (digitCount (scaled v) - 1) := by
          rw [← pow_add]
          congr 1
          omega
        _ ≤ scaled v := hlarge
    · left
      rw [Nat.sub_eq_zero_of_le hshort, pow_zero]
  apply onGrid?_ne_none
  exact (close_of_step (Nat.pos_of_ne_zero hne) hstep).imp (readsBack_of_close hv)
    (readsBack_of_close hv)

/-- The shortest decimal is found on the coarsest of the grids where a decimal reads back. -/
theorem exists_onGrid?_eq_some (tie : Tie) (hv : v.isFinite = true) (h0 : units v ≠ 0) :
    ∃ n < 17, ∃ d, onGrid? tie v (digitCount (scaled v) - (n + 1)) = some d ∧
      shortest tie v = trimZeros d ∧
      ∀ i < n, onGrid? tie v (digitCount (scaled v) - (i + 1)) = none := by
  obtain ⟨d, hd⟩ : ∃ d, (List.range 17).findSome? (fun n =>
      onGrid? tie v (digitCount (scaled v) - (n + 1))) = some d := by
    rw [← Option.isSome_iff_exists, List.findSome?_isSome_iff]
    obtain ⟨d, hd⟩ := Option.ne_none_iff_exists'.1 (onGrid?_seventeen tie hv h0)
    exact ⟨16, by simp, by rw [hd]; rfl⟩
  obtain ⟨before, n, after, hrange, hgrid, hnone⟩ := List.findSome?_eq_some_iff.1 hd
  have hn : n < 17 := List.mem_range.1 (by rw [hrange]; simp)
  refine ⟨n, hn, d, hgrid, by simp only [shortest, hd, Option.getD_some], fun i hi => ?_⟩
  have hsorted := List.pairwise_lt_range (n := 17)
  rw [hrange, List.pairwise_append] at hsorted
  have hafter := (List.pairwise_cons.1 hsorted.2.1).1
  have hmem : i ∈ before ++ n :: after := hrange ▸ List.mem_range.2 (hi.trans hn)
  rcases List.mem_append.1 hmem with hbefore | hrest
  · exact hnone i hbefore
  · rcases List.mem_cons.1 hrest with rfl | hmem
    · exact absurd hi (lt_irrefl i)
    · exact absurd hi (hafter i hmem).not_gt

/-- The shortest decimal reads back, and has seventeen digits or is `10 ^ 17`. -/
theorem shortest_spec (tie : Tie) (hv : v.isFinite = true) (h0 : units v ≠ 0) :
    roundUnits ((shortest tie v).value * one) = units v ∧
      0 < (shortest tie v).significand ∧ (shortest tie v).significand ≤ 10 ^ 17 := by
  obtain ⟨n, hn, d, hgrid, hshortest, -⟩ := exists_onGrid?_eq_some tie hv h0
  obtain ⟨hback, hle⟩ := onGrid?_eq_some hgrid
  rw [readsBack_iff hv, ← value_trimZeros, ← hshortest] at hback
  refine ⟨hback, ?_, ?_⟩
  · rcases Nat.eq_zero_or_pos (shortest tie v).significand with hzero | hpos
    · rw [value, hzero] at hback
      simp only [Nat.cast_zero, zero_mul, roundUnits_zero] at hback
      exact absurd hback.symm h0
    · exact hpos
  · have hbound : scaled v / 10 ^ (digitCount (scaled v) - (n + 1)) < 10 ^ (n + 1) := by
      rw [Nat.div_lt_iff_lt_mul (by positivity), ← pow_add]
      exact (lt_pow_digitCount _).trans_le (Nat.pow_le_pow_right (by decide) (by omega))
    calc
      (shortest tie v).significand ≤ d.significand := hshortest ▸ significand_trimZeros_le d
      _ ≤ 10 ^ (n + 1) := by omega
      _ ≤ 10 ^ 17 := Nat.pow_le_pow_right (by decide) (by omega)

/-- The sign of a float does not matter for its shortest decimal. -/
theorem shortest_abs (tie : Tie) (hv : v.isFinite = true) :
    shortest tie v.abs = shortest tie v := by
  have hscaled : scaled v.abs = scaled v := by rw [scaled, scaled, units_abs hv]
  have hreads : readsBack v.abs = readsBack v := by
    funext d
    rw [readsBack, readsBack, abs_abs_float hv]
  unfold shortest onGrid? ofFloat
  rw [hscaled, hreads]

/-! ### Places -/

theorem exponent_le_trimZeros (d : Decimal) : d.exponent ≤ (trimZeros d).exponent := by
  fun_induction trimZeros d with
  | case1 d h ih =>
    simp only at ih
    omega
  | case2 => exact le_rfl

/-- No zeros are left at the end. -/
theorem significand_trimZeros_mod (h : (trimZeros d).significand ≠ 0) :
    (trimZeros d).significand % 10 ≠ 0 := by
  fun_induction trimZeros d with
  | case1 d _ ih => exact ih h
  | case2 d hd => exact fun hmod => hd ⟨h, hmod⟩

theorem significand_shortest_mod (tie : Tie) (hv : v.isFinite = true) (h0 : units v ≠ 0) :
    (shortest tie v).significand % 10 ≠ 0 := by
  obtain ⟨-, hpos, -⟩ := shortest_spec tie hv h0
  obtain ⟨n, -, d, -, hshortest, -⟩ := exists_onGrid?_eq_some tie hv h0
  rw [hshortest] at hpos ⊢
  exact significand_trimZeros_mod hpos.ne'

theorem exponent_onGrid? {dropped : ℕ} (h : onGrid? tie v dropped = some d) :
    d.exponent = dropped - places := by
  rcases nearer?_eq_some h with ⟨-, rfl⟩ | ⟨-, rfl⟩ <;> rfl

/-- If any decimal on a grid reads back, one of the neighbours of the exact value does. -/
theorem onGrid?_ne_none_of_readsBack (hv : v.isFinite = true) {m dropped : ℕ}
    (h : readsBack v ⟨m, dropped - places⟩ = true) : onGrid? tie v dropped ≠ none := by
  have hback := (readsBack_iff hv).1 h
  have hself : roundUnits ((scaled v : ℕ) / 5 ^ places) = units v := by
    rw [scaled_div, roundUnits_units hv]
  have hnonneg : ∀ a : ℕ, (0 : ℚ) ≤ a / 5 ^ places := fun a => by positivity
  have hmono : ∀ {a b : ℕ}, a ≤ b → roundUnits (a / 5 ^ places) ≤ roundUnits (b / 5 ^ places) := by
    intro a b hle
    refine roundUnits_mono (hnonneg a) (div_le_div_of_nonneg_right (Nat.cast_le.2 hle) ?_)
    positivity
  have hstep : 0 < 10 ^ dropped := by positivity
  rw [value_mul_one] at hback
  apply onGrid?_ne_none
  rw [readsBack_iff hv, readsBack_iff hv, value_mul_one, value_mul_one]
  rcases Nat.lt_or_ge (scaled v / 10 ^ dropped) m with hlow | hhigh
  · right
    apply le_antisymm
    · exact (hmono (Nat.mul_le_mul_right _ hlow)).trans_eq hback
    · refine hself.symm.trans_le (hmono ?_)
      exact ((Nat.div_lt_iff_lt_mul hstep).1 (Nat.lt_succ_self _)).le
  · left
    apply le_antisymm
    · exact (hmono (Nat.div_mul_le_self _ _)).trans_eq hself
    · exact hback.symm.trans_le (hmono (Nat.mul_le_mul_right _ hhigh))

/-- The shortest decimal of a float has no more places than any decimal that reads back as it. -/
theorem neg_le_exponent_shortest (tie : Tie) (hv : v.isFinite = true) {m k : ℕ} (hk : k ≤ places)
    (hlarge : 10 ^ (places - k) ≤ scaled v) (h : readsBack v ⟨m, -k⟩ = true) :
    -(k : ℤ) ≤ (shortest tie v).exponent := by
  have hpos : 0 < scaled v := lt_of_lt_of_le (by positivity) hlarge
  have h0 : units v ≠ 0 := by
    rw [scaled_eq] at hpos
    exact left_ne_zero_of_mul hpos.ne'
  obtain ⟨n, -, d, hgrid, hshortest, hnone⟩ := exists_onGrid?_eq_some tie hv h0
  have hdigits : places - k < digitCount (scaled v) :=
    (Nat.pow_lt_pow_iff_right (by decide)).1 (hlarge.trans_lt (lt_pow_digitCount _))
  have hfound : places - k ≤ digitCount (scaled v) - (n + 1) := by
    by_contra hcoarse
    have hn : digitCount (scaled v) - 1 - (places - k) < n := by omega
    have hfree := hnone _ hn
    rw [show digitCount (scaled v) - (digitCount (scaled v) - 1 - (places - k) + 1) = places - k by
      omega] at hfree
    refine onGrid?_ne_none_of_readsBack hv (m := m) ?_ hfree
    rwa [Nat.cast_sub hk, sub_sub_cancel_left]
  have hle := exponent_le_trimZeros d
  rw [← hshortest, exponent_onGrid? hgrid] at hle
  omega

end KeypadCalc.Decimal
