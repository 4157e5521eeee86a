import KeypadCalc.Proofs.NumberText.Display

/-! Numbers that are told apart by their texts. The plain form determines a finite number but for
the sign of zero, whether it is written out or with a power of ten. Main statement: two numbers are
shown by the same text exactly if they have the same places on the display. -/

namespace KeypadCalc

open Binary64 Decimal

/-! ### Spellings -/

/-- A number is determined by its spelling, since it is read back from it. -/
theorem Json.Numeral.eq_of_spelling_eq {m n : Numeral} (hm : m.IsSpelled) (hn : n.IsSpelled)
    (hsign : m.negative = n.negative) (h : m.spelling = n.spelling) : m = n := by
  have hread := unsigned?_append hm (ends_comma [])
  rw [hsign, h, unsigned?_append hn (ends_comma [])] at hread
  exact (Prod.mk.inj (Option.some.inj hread)).1.symm

theorem Decimal.exponentText_inj {d e : Decimal} (hd : d.significand ≠ 0) (he : e.significand ≠ 0)
    (h : exponentText d = exponentText e) : d = e := by
  rw [← Json.spelling_exponentNumeral false, ← Json.spelling_exponentNumeral false] at h
  have hsame := Json.Numeral.eq_of_spelling_eq (Json.isSpelled_exponentNumeral hd)
    (Json.isSpelled_exponentNumeral he) rfl h
  rw [← Json.decimal_exponentNumeral false d, hsame, Json.decimal_exponentNumeral]

namespace NumberText

variable {v w : Float}

/-! ### Plain texts -/

theorem letter_mem_plain_iff (hv : v.isFinite = true) : 'e' ∈ plain v ↔ ¬Positional v := by
  constructor
  · intro hmem h
    exact absurd (isAllowed_of_mem_plain h _ hmem) (by decide)
  · exact fun h => not_imp_comm.1 (positional_of_letter_notMem hv) h

theorem units_eq_zero_of_plain (hv : v.isFinite = true) (h : plain v = ['0']) : units v = 0 := by
  have hpositional : Positional v := positional_of_letter_notMem hv (by rw [h]; decide)
  have hvalue := value?_plain hpositional
  rw [h, value?_zero] at hvalue
  by_contra h0
  rw [if_neg h0] at hvalue
  rw [← Option.some.inj hvalue] at h0
  exact h0 units_zero

/-- A number with a power of ten, after its sign. -/
theorem plain_of_not_positional (hv : v.isFinite = true) (h0 : units v ≠ 0) (h : ¬Positional v) :
    plain v = if isNegative v then '-' :: exponentText (shortest .up v)
      else exponentText (shortest .up v) := by
  rw [plain_of_units_ne_zero hv h0, Style.decimalText,
    if_neg (mt (positional_shortest_iff hv h0).1 h)]

theorem exponentText_ne_minus (d : Decimal) (t : Text) : exponentText d ≠ '-' :: t := by
  obtain ⟨mantissa, sign, heq, hmantissa, -⟩ := exponentText_eq d
  obtain ⟨c, front, rfl, hc⟩ := hmantissa.exists_cons
  rw [heq]
  intro h
  obtain ⟨rfl, -⟩ := List.cons_eq_cons.1 h
  exact absurd hc (by decide)

theorem eq_of_exponentText_eq (hv : v.isFinite = true) (hw : w.isFinite = true)
    (hv0 : units v ≠ 0) (hw0 : units w ≠ 0) (hsign : isNegative v = isNegative w)
    (h : exponentText (shortest .up v) = exponentText (shortest .up w)) : v = w := by
  obtain ⟨-, hpos, -⟩ := shortest_spec .up hv hv0
  obtain ⟨-, hpos', -⟩ := shortest_spec .up hw hw0
  have habs : v.abs = w.abs := by
    rw [← toFloat_shortest hv hv0, exponentText_inj hpos.ne' hpos'.ne' h, toFloat_shortest hw hw0]
  refine eq_of_parts_eq hv hw hsign ?_
  rw [← units_abs hv, habs, units_abs hw]

/-- Finite numbers with the same text are the same, but for the sign of zero. -/
theorem eq_of_plain_eq (hv : v.isFinite = true) (hw : w.isFinite = true)
    (h : plain v = plain w) : v = w ∨ units v = 0 ∧ units w = 0 := by
  by_cases hv0 : units v = 0
  · rw [plain_of_units_eq_zero hv hv0] at h
    exact .inr ⟨hv0, units_eq_zero_of_plain hw h.symm⟩
  by_cases hw0 : units w = 0
  · rw [plain_of_units_eq_zero hw hw0] at h
    exact .inr ⟨units_eq_zero_of_plain hv h, hw0⟩
  left
  by_cases hpositional : Positional v
  · have hpositional' : Positional w := by
      by_contra hnot
      rw [← letter_mem_plain_iff hw, ← h, letter_mem_plain_iff hv] at hnot
      exact hnot hpositional
    have hvalue := value?_plain hpositional
    rw [h, value?_plain hpositional', if_neg hv0, if_neg hw0] at hvalue
    exact (Option.some.inj hvalue).symm
  · have hpower : ¬Positional w := by
      rwa [← letter_mem_plain_iff hw, ← h, letter_mem_plain_iff hv]
    rw [plain_of_not_positional hv hv0 hpositional, plain_of_not_positional hw hw0 hpower] at h
    cases hsign : isNegative v <;> cases hsign' : isNegative w <;> rw [hsign, hsign'] at h
    · exact eq_of_exponentText_eq hv hw hv0 hw0 (hsign.trans hsign'.symm) h
    · exact absurd h (exponentText_ne_minus _ _)
    · exact absurd h.symm (exponentText_ne_minus _ _)
    · exact eq_of_exponentText_eq hv hw hv0 hw0 (hsign.trans hsign'.symm) (List.cons_eq_cons.1 h).2

/-! ### Displayed texts -/

theorem ofPlaces_zero : ofPlaces 0 = 0 := by
  rw [ofPlaces, Nat.cast_zero, zero_div, zero_mul, roundUnits_zero]

theorem natAbs_displayCount (v : Float) : (displayCount v).natAbs = placesOf (units v) := by
  unfold displayCount
  split <;> simp

theorem displayCount_eq_zero_iff (hv : v.isFinite = true)
    (h : units v = 0 ∨ units 1e-6 ≤ units v) : displayCount v = 0 ↔ units v = 0 := by
  refine ⟨fun hcount => h.resolve_right fun hle => ?_, displayCount_of_units_eq_zero⟩
  have hplaces : placesOf (units v) = 0 := by
    rw [← natAbs_displayCount, hcount, Int.natAbs_zero]
  have hrounded := units_le_roundPlaces hv hle
  rw [(roundPlaces_parts hv).2.2, hplaces, ofPlaces_zero] at hrounded
  exact absurd hrounded (not_le.2 lowest_parts.1)

theorem displayCount_eq_of_count_eq (h : count v = count w) : displayCount v = displayCount w := by
  have hunits : units v = units w := by rw [← natAbs_count, h, natAbs_count]
  by_cases hzero : count w = 0
  · have hw0 : units w = 0 := by rw [← natAbs_count, hzero, Int.natAbs_zero]
    rw [displayCount_of_units_eq_zero (hunits.trans hw0), displayCount_of_units_eq_zero hw0]
  · rw [displayCount, displayCount, hunits, isNegative_eq_of_count_ne_zero (h ▸ hzero), h,
      isNegative_eq_of_count_ne_zero hzero]

theorem isNegative_of_displayCount_ne_zero (hne : displayCount v ≠ 0) :
    isNegative v = decide (displayCount v < 0) := by
  unfold displayCount at hne ⊢
  cases hneg : isNegative v with
  | true =>
    rw [hneg, if_pos rfl] at hne
    rw [if_pos rfl]
    exact (decide_eq_true (by omega)).symm
  | false =>
    rw [if_neg (by decide)]
    exact (decide_eq_false (by omega)).symm

theorem parts_eq_of_displayCount_eq (h : displayCount v = displayCount w)
    (hne : displayCount w ≠ 0) :
    isNegative v = isNegative w ∧ placesOf (units v) = placesOf (units w) := by
  rw [isNegative_of_displayCount_ne_zero (h ▸ hne), isNegative_of_displayCount_ne_zero hne,
    ← natAbs_displayCount v, ← natAbs_displayCount w, h]
  exact ⟨rfl, rfl⟩

/-- Rounded numbers with the same places are the same, but for the sign of zero. -/
theorem display_congr (hv : v.isFinite = true) (hw : w.isFinite = true)
    (hvsize : units v = 0 ∨ units 1e-6 ≤ units v) (hwsize : units w = 0 ∨ units 1e-6 ≤ units w)
    (h : displayCount v = displayCount w) : display v = display w := by
  by_cases hzero : displayCount w = 0
  · rw [display_of_units_eq_zero hv ((displayCount_eq_zero_iff hv hvsize).1 (h.trans hzero)),
      display_of_units_eq_zero hw ((displayCount_eq_zero_iff hw hwsize).1 hzero)]
  · obtain ⟨hfinite, hsign, hunits⟩ := roundPlaces_parts hv
    obtain ⟨hfinite', hsign', hunits'⟩ := roundPlaces_parts hw
    obtain ⟨hnegative, hplaces⟩ := parts_eq_of_displayCount_eq h hzero
    rw [display_eq hv hvsize, display_eq hw hwsize,
      eq_of_parts_eq hfinite hfinite' (by rw [hsign, hsign', hnegative])
        (by rw [hunits, hunits', hplaces])]

/-- Numbers that are zero or large enough to be rounded are shown by the same text exactly if they
have the same places. -/
theorem display_eq_display_iff (hv : v.isFinite = true) (hw : w.isFinite = true)
    (hvsize : units v = 0 ∨ units 1e-6 ≤ units v) (hwsize : units w = 0 ∨ units 1e-6 ≤ units w) :
    display v = display w ↔ displayCount v = displayCount w := by
  refine ⟨fun h => ?_, display_congr hv hw hvsize hwsize⟩
  rw [display_eq hv hvsize, display_eq hw hwsize] at h
  rw [← displayCount_roundPlaces hv, ← displayCount_roundPlaces hw]
  rcases eq_of_plain_eq (roundPlaces_parts hv).1 (roundPlaces_parts hw).1 h with h | ⟨h0, h0'⟩
  · rw [h]
  · rw [displayCount_of_units_eq_zero h0, displayCount_of_units_eq_zero h0']

/-! ### Numbers that lie close to each other -/

theorem abs_displayCount_sub_le (v : Float) :
    |(displayCount v : ℚ) - toRat v * 10 ^ 10| ≤ 1 / 2 := by
  have hle := abs_nearestEven_sub_le_half (units_nonneg (units v))
  rw [pow_displayPlaces] at hle
  have hcount : (displayCount v : ℚ) = sgn (isNegative v) * placesOf (units v) := by
    unfold displayCount sgn
    split <;> push_cast <;> ring
  rwa [hcount, toRat_eq, mul_assoc, ← mul_sub, abs_mul, abs_sgn, one_mul]

/-- A number has the places that it lies around. -/
theorem displayCount_eq_of_abs_sub_lt {c : ℤ} (h : |toRat v * 10 ^ 10 - c| < 1 / 2) :
    displayCount v = c := by
  obtain ⟨h1, h2⟩ := abs_lt.1 h
  obtain ⟨h3, h4⟩ := abs_le.1 (abs_displayCount_sub_le v)
  have hlt : (displayCount v : ℚ) < c + 1 := by linarith
  have hgt : (c : ℚ) < displayCount v + 1 := by linarith
  have hlt' : displayCount v < c + 1 := by exact_mod_cast hlt
  have hgt' : c < displayCount v + 1 := by exact_mod_cast hgt
  omega

/-- A number that is moved by less than what it is away from all ties keeps its places. -/
theorem displayCount_eq_of_lt_tie {δ : ℚ} (hmoved : |toRat w - toRat v| ≤ δ)
    (htie : ∀ k : ℤ, δ < |toRat v - (2 * k + 1) / (2 * 10 ^ 10)|) :
    displayCount w = displayCount v := by
  obtain ⟨h1, h2⟩ := abs_le.1 (abs_displayCount_sub_le v)
  obtain ⟨h3, h4⟩ := abs_le.1 hmoved
  have habove : toRat v ≤ (2 * displayCount v + 1) / (2 * 10 ^ 10) := by
    rw [le_div_iff₀ (by norm_num)]
    linarith
  have hbelow : (2 * ((displayCount v - 1 : ℤ) : ℚ) + 1) / (2 * 10 ^ 10) ≤ toRat v := by
    push_cast
    rw [div_le_iff₀ (by norm_num)]
    linarith
  have hhigh := htie (displayCount v)
  have hlow := htie (displayCount v - 1)
  rw [abs_of_nonpos (sub_nonpos.2 habove)] at hhigh
  rw [abs_of_nonneg (sub_nonneg.2 hbelow)] at hlow
  push_cast at hlow
  refine displayCount_eq_of_abs_sub_lt (abs_lt.2 ⟨?_, ?_⟩) <;> linarith

theorem natAbs_displayCount_sub_le (h : |toRat w - toRat v| * 10 ^ 10 < 1) :
    (displayCount v - displayCount w).natAbs ≤ 1 := by
  have hmoved : |toRat w * 10 ^ 10 - toRat v * 10 ^ 10| < 1 := by
    rwa [← sub_mul, abs_mul, abs_of_pos (by norm_num : (0 : ℚ) < 10 ^ 10)]
  obtain ⟨h1, h2⟩ := abs_lt.1 hmoved
  obtain ⟨h3, h4⟩ := abs_le.1 (abs_displayCount_sub_le v)
  obtain ⟨h5, h6⟩ := abs_le.1 (abs_displayCount_sub_le w)
  have hlt : (displayCount v : ℚ) < displayCount w + 2 := by linarith
  have hgt : (displayCount w : ℚ) < displayCount v + 2 := by linarith
  have hlt' : displayCount v < displayCount w + 2 := by exact_mod_cast hlt
  have hgt' : displayCount w < displayCount v + 2 := by exact_mod_cast hgt
  omega

/-- From `2 ^ 19` on different numbers have different places. -/
theorem eq_of_displayCount_eq (hv : v.isFinite = true) (hw : w.isFinite = true)
    (hvsize : 2 ^ 19 * one ≤ units v) (hwsize : 2 ^ 19 * one ≤ units w)
    (h : displayCount v = displayCount w) : v = w := by
  obtain ⟨-, hsize, -⟩ := lowest_parts
  have hpos : 0 < 2 ^ 19 * one := Nat.mul_pos (by decide) Binary64.one_pos
  have hne : displayCount w ≠ 0 := fun h0 =>
    (hpos.trans_le hwsize).ne' ((displayCount_eq_zero_iff hw (.inr (hsize.trans hwsize))).1 h0)
  obtain ⟨hnegative, hplaces⟩ := parts_eq_of_displayCount_eq h hne
  refine eq_of_parts_eq hv hw hnegative ?_
  rw [← ofPlaces_placesOf_of_le (representable_units hv) hvsize, hplaces,
    ofPlaces_placesOf_of_le (representable_units hw) hwsize]

end NumberText

end KeypadCalc
