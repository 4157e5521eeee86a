import KeypadCalc.Proofs.NumberText
import KeypadCalc.Proofs.NumberText.Places
import KeypadCalc.Proofs.Percent

/-! The texts on the display. What is shown is the plain text of the number, rounded to the places
of the display: this is a number that is written out, with no more than these places, and it is not
changed by being rounded again. Main statement: the form of a displayed text, and that it is shown
again for the number that is read from it. -/

namespace KeypadCalc.NumberText

open Binary64 Decimal
open Decimal.Numeral (value?)

variable {d : Decimal} {v w : Float} {u : Text}

/-! ### The bounds of what is written out -/

theorem lowest_parts : 0 < units 1e-6 ∧ units 1e-6 ≤ 2 ^ 19 * one ∧
    (10 ^ 7 - 1) * one ≤ 10 ^ 13 * units 1e-6 ∧ 10 ^ (places - displayPlaces) ≤ scaled 1e-6 ∧
    roundPlaces displayPlaces 1e-6 = 1e-6 := by
  decide +kernel

theorem two_pow_lt_highest : 2 ^ 52 * one < units 1e21 := by decide +kernel

theorem units_zero : units 0.0 = 0 := rfl

theorem value?_zero : value? ['0'] = some 0.0 := by rfl

/-! ### Rounded numbers -/

theorem ofPlaces_placesOf_lt_limit (hv : v.isFinite = true) :
    ofPlaces (placesOf (units v)) < limit := by
  rcases Nat.lt_or_ge (units v) (2 ^ 19 * one) with hlt | hge
  · have hle := ofPlaces_mono (placesOf_mono hlt.le)
    rw [placesOf_mul_one, ofPlaces_mul, (representable_two_pow 19).roundUnits_eq] at hle
    exact hle.trans_lt (mul_one_lt_limit (j := 20) (by decide) (by decide))
  · rw [ofPlaces_placesOf_of_le (representable_units hv) hge]
    exact units_lt_limit hv

theorem roundPlaces_parts (hv : v.isFinite = true) :
    (roundPlaces displayPlaces v).isFinite = true ∧
      isNegative (roundPlaces displayPlaces v) = isNegative v ∧
      units (roundPlaces displayPlaces v) = ofPlaces (placesOf (units v)) := by
  have hlimit := ofPlaces_placesOf_lt_limit hv
  have hplaces : displayPlaces ≤ places := by decide
  rw [roundPlaces_eq_rounded hplaces, abs_toRat]
  exact ⟨isFinite_rounded.2 hlimit, isNegative_rounded, units_rounded hlimit⟩

/-- Floats that are finite and have the same sign and units are the same. -/
theorem eq_of_parts_eq (hv : v.isFinite = true) (hw : w.isFinite = true)
    (hsign : isNegative v = isNegative w) (hunits : units v = units w) : v = w := by
  rw [eq_rounded hv, eq_rounded hw, hsign, hunits]

theorem roundPlaces_eq_self (hv : v.isFinite = true)
    (h : ofPlaces (placesOf (units v)) = units v) : roundPlaces displayPlaces v = v := by
  obtain ⟨hfinite, hsign, hunits⟩ := roundPlaces_parts hv
  exact eq_of_parts_eq hfinite hv hsign (hunits.trans h)

theorem roundPlaces_of_isWhole (h : isWhole v = true) : roundPlaces displayPlaces v = v := by
  rw [isWhole, Bool.and_eq_true, beq_iff_eq] at h
  exact roundPlaces_eq_self h.1
    (ofPlaces_placesOf_of_dvd (representable_units h.1) (Nat.dvd_of_mod_eq_zero h.2))

/-- Rounding once more changes nothing. -/
theorem roundPlaces_roundPlaces (hv : v.isFinite = true) :
    roundPlaces displayPlaces (roundPlaces displayPlaces v) = roundPlaces displayPlaces v := by
  obtain ⟨hfinite, -, hunits⟩ := roundPlaces_parts hv
  refine roundPlaces_eq_self hfinite ?_
  rw [hunits, placesOf_ofPlaces_placesOf (representable_units hv)]

/-- Rounding keeps a number at the lower bound of the numbers that are written out or above. -/
theorem units_le_roundPlaces (hv : v.isFinite = true) (h : units 1e-6 ≤ units v) :
    units 1e-6 ≤ units (roundPlaces displayPlaces v) := by
  obtain ⟨-, -, -, -, hbound⟩ := lowest_parts
  have hself : units (1e-6 : Float) = ofPlaces (placesOf (units 1e-6)) := by
    rw [← (roundPlaces_parts (by rfl)).2.2, hbound]
  rw [(roundPlaces_parts hv).2.2, hself]
  exact ofPlaces_mono (placesOf_mono h)

/-! ### What is shown -/

/-- A finite number is shown in the plain form of the rounded one, unless it is nonzero and less
than is written out. -/
theorem display_eq (hv : v.isFinite = true) (h : units v = 0 ∨ units 1e-6 ≤ units v) :
    display v = plain (roundPlaces displayPlaces v) := by
  unfold display
  cases hwhole : isWhole v with
  | true =>
    rw [roundPlaces_of_isWhole hwhole]
    simp
  | false =>
    obtain ⟨hdvd, hlt⟩ := units_lt_of_not_isWhole hv hwhole
    have hne : units v ≠ 0 := fun h0 => hdvd (h0 ▸ dvd_zero one)
    have hpositional : Positional v :=
      (positional_iff hv).2 (.inr ⟨h.resolve_left hne, hlt.trans two_pow_lt_highest⟩)
    have hletter : (plain v).contains 'e' = false := by
      rw [← Bool.not_eq_true, List.contains_iff_mem]
      exact fun hmem => absurd (isAllowed_of_mem_plain hpositional _ hmem) (by decide)
    simp only [hv, hletter, Bool.not_true, Bool.or_self, Bool.false_eq_true, if_false]

theorem display_of_units_eq_zero (hv : v.isFinite = true) (h0 : units v = 0) :
    display v = ['0'] := by
  have hwhole : isWhole v = true := by
    rw [isWhole, hv, h0, Nat.zero_mod]
    rfl
  rw [display_eq hv (.inl h0), roundPlaces_of_isWhole hwhole, plain_of_units_eq_zero hv h0]

/-! ### The form of a text -/

/-- A number without its sign as it is shown: digits, perhaps with a point and places after it, and
neither zeros in front that say nothing nor zeros at the end of the places. -/
inductive IsTrimmed : Text → Prop
  | whole {ds : Text} : ds ≠ [] → (∀ c ∈ ds, c.isDigit) → ds.head? ≠ some '0' → IsTrimmed ds
  | point {ds fs : Text} : ds ≠ [] → (∀ c ∈ ds, c.isDigit) → (ds.head? = some '0' → ds = ['0']) →
      fs ≠ [] → fs.length ≤ displayPlaces → (∀ c ∈ fs, c.isDigit) → fs.getLast? ≠ some '0' →
        IsTrimmed (ds ++ '.' :: fs)

/-- The text of a number that is written out on the display. Zero has no sign. -/
def IsDisplayed (t : Text) : Prop := t = ['0'] ∨ ∃ u, IsTrimmed u ∧ (t = u ∨ t = '-' :: u)

/-- A text that spells a number without a zero at its end spells no multiple of ten. -/
theorem ofDigitChars_mod_of_getLast? {cs : Text} (h : cs.getLast? = some '0') :
    Nat.ofDigitChars 10 cs 0 % 10 = 0 := by
  obtain ⟨init, rfl⟩ := List.getLast?_eq_some_iff.1 h
  rw [Nat.ofDigitChars_append, Nat.ofDigitChars_cons, Nat.ofDigitChars_nil]
  simp

theorem isTrimmed_positionalText (h : d.significand % 10 ≠ 0) (hd : d.significand ≠ 0)
    (hplaces : -(displayPlaces : ℤ) ≤ d.exponent) : IsTrimmed (positionalText false d) := by
  rcases le_or_gt 0 d.exponent with hexponent | hexponent
  · rw [positionalText_of_nonneg hexponent]
    refine .whole (by simp [Json.digits_ne_nil]) ?_ ?_
    · refine List.forall_mem_append.2 ⟨Json.digits_isDigit _, fun c hc => ?_⟩
      rw [List.eq_of_mem_replicate hc]
      decide
    · rw [List.head?_append_of_ne_nil _ (Json.digits_ne_nil _)]
      exact Json.head?_digits hd
  · have hspelled : (Json.positionalNumeral false d).IsSpelled :=
      Json.isSpelled_positionalNumeral (.inl hd)
    have hne := Json.fraction_positionalNumeral_ne_nil false d
    have hread := Json.decimal_positionalNumeral false d
    rw [Json.writtenOut, if_neg (not_le.2 hexponent), Json.Numeral.decimal,
      Json.power_positionalNumeral] at hread
    have hsignificand := congrArg Decimal.significand hread
    have hlength := congrArg Decimal.exponent hread
    rw [positionalText_of_neg hexponent]
    refine .point hspelled.whole_ne hspelled.whole hspelled.zero hne ?_ hspelled.fraction ?_
    · simp only [Option.getD_none] at hlength
      omega
    · intro hlast
      refine h (hsignificand.symm ▸ ofDigitChars_mod_of_getLast? ?_)
      rw [List.getLast?_append_of_ne_nil _ hne, hlast]

/-- What the rounded number is rounded from has the places of the display and reads back. -/
theorem displayPlaces_le_shortest (hv : v.isFinite = true) (h : units 1e-6 ≤ units v) :
    -(displayPlaces : ℤ) ≤ (shortest .up (roundPlaces displayPlaces v)).exponent := by
  obtain ⟨hfinite, -, hunits⟩ := roundPlaces_parts hv
  obtain ⟨-, -, -, hscaled, -⟩ := lowest_parts
  have hlarge : scaled 1e-6 ≤ scaled (roundPlaces displayPlaces v) := by
    rw [scaled_eq, scaled_eq]
    exact Nat.mul_le_mul_right _ (units_le_roundPlaces hv h)
  refine neg_le_exponent_shortest (m := placesOf (units v)) .up hfinite (by decide)
    (hscaled.trans hlarge) ?_
  rw [readsBack_iff hfinite, hunits, ofPlaces, value, zpow_neg, zpow_natCast, ← div_eq_mul_inv]

/-- A rounded number that is written out is shown as a trimmed one. -/
theorem isDisplayed_plain (hv : v.isFinite = true) (h : units 1e-6 ≤ units v)
    (hpositional : Positional (roundPlaces displayPlaces v)) :
    IsDisplayed (plain (roundPlaces displayPlaces v)) := by
  obtain ⟨hfinite, -, -⟩ := roundPlaces_parts hv
  obtain ⟨hpos, -⟩ := lowest_parts
  have h0 := (hpos.trans_le (units_le_roundPlaces hv h)).ne'
  obtain ⟨-, hsignificand, -⟩ := shortest_spec .up hfinite h0
  have htrimmed := isTrimmed_positionalText (significand_shortest_mod .up hfinite h0)
    hsignificand.ne' (displayPlaces_le_shortest hv h)
  rw [plain_of_units_ne_zero hfinite h0, decimalText_shortest hpositional h0]
  refine .inr ⟨_, htrimmed, ?_⟩
  split
  · exact .inr rfl
  · exact .inl rfl

/-! ### Reading a text back -/

/-- A number that is written out is read back from its text. Negative zero is written like zero. -/
theorem value?_plain (h : Positional v) :
    value? (plain v) = some (if units v = 0 then 0.0 else v) := by
  have hv := h.isFinite
  by_cases h0 : units v = 0
  · rw [plain_of_units_eq_zero hv h0, if_pos h0, value?_zero]
  · rw [if_neg h0]
    obtain ⟨u, w, hliteral, hvalue, ⟨hplain, rfl⟩ | ⟨hplain, rfl⟩⟩ :=
      exists_literal_plain h fun h => absurd h h0
    · rw [hplain, hvalue]
    · rw [hplain, (Percent.isNumeral_of_isLiteral hliteral).value?_minus, hvalue]
      rfl

theorem positional_of_letter_notMem (hv : v.isFinite = true) (h : 'e' ∉ plain v) :
    Positional v := by
  by_contra hnot
  obtain ⟨front, rest, hplain, -⟩ := exists_power_of_not_positional hnot hv
  exact h (by simp [hplain])

theorem positional_roundPlaces (h : Positional v) :
    Positional (roundPlaces displayPlaces v) := by
  have hv := h.isFinite
  obtain ⟨hfinite, -, hunits⟩ := roundPlaces_parts hv
  cases hwhole : isWhole v with
  | true => rwa [roundPlaces_of_isWhole hwhole]
  | false =>
    obtain ⟨hdvd, hlt⟩ := units_lt_of_not_isWhole hv hwhole
    have hne : units v ≠ 0 := fun h0 => hdvd (h0 ▸ dvd_zero one)
    have hlow := ((positional_iff hv).1 h).resolve_left hne
    have hle := ofPlaces_mono (placesOf_mono hlt.le)
    rw [placesOf_mul_one, ofPlaces_mul, (representable_two_pow 52).roundUnits_eq, ← hunits] at hle
    exact (positional_iff hfinite).2
      (.inr ⟨units_le_roundPlaces hv hlow.1, hle.trans_lt two_pow_lt_highest⟩)

/-- The signed number of units of the last place on the display that is nearest to a float, a tie
going to the even one. -/
def displayCount (v : Float) : ℤ :=
  if isNegative v then -placesOf (units v) else placesOf (units v)

theorem placesOf_zero : placesOf 0 = 0 := by
  have h := placesOf_mul_one 0
  rwa [Nat.zero_mul, Nat.zero_mul] at h

theorem displayCount_of_units_eq_zero (h0 : units v = 0) : displayCount v = 0 := by
  rw [displayCount, h0, placesOf_zero]
  split <;> rfl

theorem displayCount_roundPlaces (hv : v.isFinite = true) :
    displayCount (roundPlaces displayPlaces v) = displayCount v := by
  obtain ⟨-, hsign, hunits⟩ := roundPlaces_parts hv
  rw [displayCount, displayCount, hsign, hunits,
    placesOf_ofPlaces_placesOf (representable_units hv)]

/-- A finite number whose plain form has no power of ten is shown as zero, without a sign, or as a
number with at most the places of the display and no zeros at their end. What is read back from the
text has the same places as the number, and is shown by the same text. -/
theorem display_spec (hv : v.isFinite = true) (hplain : 'e' ∉ plain v) :
    IsDisplayed (display v) ∧
      ∃ w, value? (display v) = some w ∧ displayCount w = displayCount v ∧
        display w = display v := by
  have hpositional := positional_of_letter_notMem hv hplain
  have hsize : units v = 0 ∨ units 1e-6 ≤ units v :=
    ((positional_iff hv).1 hpositional).imp_right And.left
  have hrounded := positional_roundPlaces hpositional
  rcases hsize with h0 | hle
  · rw [display_of_units_eq_zero hv h0]
    refine ⟨.inl rfl, 0.0, value?_zero, ?_, display_of_units_eq_zero (by rfl) units_zero⟩
    rw [displayCount_of_units_eq_zero h0, displayCount_of_units_eq_zero units_zero]
  · obtain ⟨hpos, -⟩ := lowest_parts
    have hle' := units_le_roundPlaces hv hle
    rw [display_eq hv (.inr hle)]
    refine ⟨isDisplayed_plain hv hle hrounded, _, value?_plain hrounded, ?_, ?_⟩
    all_goals rw [if_neg (hpos.trans_le hle').ne']
    · exact displayCount_roundPlaces hv
    · rw [display_eq hrounded.isFinite (.inr hle'), roundPlaces_roundPlaces hv]

/-- All nines are carried, and no point is left. -/
theorem display_spec_of_carry :
    (-0.99999999996 : Float).isFinite = true ∧ 'e' ∉ plain (-0.99999999996) ∧
      display (-0.99999999996) = ['-', '1'] ∧ IsDisplayed ['-', '1'] ∧
      ∃ w, value? ['-', '1'] = some w ∧ displayCount w = displayCount (-0.99999999996) ∧
        display w = ['-', '1'] := by
  have hv : (-0.99999999996 : Float).isFinite = true := by decide +kernel
  have hplain : 'e' ∉ plain (-0.99999999996) := by decide +kernel
  have htext : display (-0.99999999996) = ['-', '1'] := by decide +kernel
  have hspec := display_spec hv hplain
  rw [htext] at hspec
  exact ⟨hv, hplain, htext, hspec⟩

end KeypadCalc.NumberText
