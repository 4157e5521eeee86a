import KeypadCalc.NumberText
import KeypadCalc.Proofs.Binary64.Comparing
import KeypadCalc.Proofs.Decimal.Shortest
import KeypadCalc.Proofs.Json.Decimal
import KeypadCalc.Proofs.Numeral
import KeypadCalc.Proofs.Sanitizing

/-! Numbers as the next expression. Zero and what lies from 1e-6 up to below 1e21 are written as
literals, which read back as the same number. All other numbers have a letter in them that no
expression may hold. -/

namespace KeypadCalc

open Binary64 Decimal
open Decimal.Numeral (IsNumeral value? ofDigits decimal?_whole decimal?_point)
open Sanitizer

variable {d : Decimal} {v : Float} {tie : Tie} {ds fs : Text}

/-! ### The power of ten of the first digit -/

theorem Decimal.le_leadingPower_iff (hd : d.significand ≠ 0) (k : ℤ) :
    k ≤ d.leadingPower ↔ 10 ^ k ≤ d.value := by
  obtain ⟨s, e⟩ := d
  have hpos : (0 : ℚ) < 10 ^ e := by positivity
  have hcount : 0 < digitCount s := by
    rw [digitCount_eq]
    exact Nat.length_toDigits_pos
  simp only [leadingPower, value] at hd ⊢
  constructor
  · intro hk
    have hle : ((10 ^ (digitCount s - 1) : ℕ) : ℚ) ≤ s := by exact_mod_cast pow_digitCount_le hd
    calc
      (10 : ℚ) ^ k ≤ 10 ^ ((digitCount s - 1 : ℕ) + e) :=
        zpow_le_zpow_right₀ (by norm_num) (by omega)
      _ = ((10 ^ (digitCount s - 1) : ℕ) : ℚ) * 10 ^ e := by
        rw [zpow_add₀ (by norm_num), zpow_natCast]
        norm_cast
      _ ≤ s * 10 ^ e := mul_le_mul_of_nonneg_right hle hpos.le
  · intro hk
    have hlt : (s : ℚ) < (10 ^ digitCount s : ℕ) := by exact_mod_cast lt_pow_digitCount s
    have hlt' : (10 : ℚ) ^ k < 10 ^ (digitCount s + e) := by
      calc
        (10 : ℚ) ^ k ≤ s * 10 ^ e := hk
        _ < (10 ^ digitCount s : ℕ) * 10 ^ e := mul_lt_mul_of_pos_right hlt hpos
        _ = 10 ^ (digitCount s + e) := by
          rw [zpow_add₀ (by norm_num), zpow_natCast]
          norm_cast
    have := (zpow_lt_zpow_iff_right₀ (by norm_num : (1 : ℚ) < 10)).1 hlt'
    omega

theorem Decimal.value_nonneg (d : Decimal) : 0 ≤ d.value := by
  unfold value
  positivity

theorem Decimal.value_one (k : ℤ) : value ⟨1, k⟩ = 10 ^ k := by
  rw [value, Nat.cast_one, one_mul]

theorem Decimal.leadingPower_one (k : ℤ) : leadingPower ⟨1, k⟩ = k := by
  have hcount : digitCount 1 = 1 := by rw [digitCount_eq]; rfl
  rw [leadingPower, hcount]
  simp

/-- Whether the shortest digits begin at a power of ten or above is seen from the number itself. -/
theorem Decimal.le_leadingPower_shortest_iff (hv : v.isFinite = true) (h0 : units v ≠ 0) {k : ℤ}
    {p : Float} (hp : (⟨1, k⟩ : Decimal).toFloat = p) (hfin : p.isFinite = true)
    (hshort : shortest tie p = ⟨1, k⟩) :
    k ≤ (shortest tie v).leadingPower ↔ units p ≤ units v := by
  obtain ⟨hback, hpos, -⟩ := shortest_spec tie hv h0
  have hten : (0 : ℚ) < 10 ^ k := by positivity
  have hrounded : p = rounded false (10 ^ k * one) := by
    rw [← hp, toFloat_eq_rounded, value_one]
  have hpunits : units p = roundUnits (10 ^ k * one) := by
    rw [hrounded] at hfin ⊢
    exact units_rounded (isFinite_rounded.1 hfin)
  rw [le_leadingPower_iff hpos.ne', hpunits, ← hback]
  constructor
  · intro hle
    exact roundUnits_mono (mul_nonneg hten.le one_cast_pos.le)
      (mul_le_mul_of_nonneg_right hle one_cast_pos.le)
  · intro hle
    by_contra hlt
    have hle' : roundUnits ((shortest tie v).value * one) ≤ roundUnits (10 ^ k * one) :=
      roundUnits_mono (mul_nonneg (value_nonneg _) one_cast_pos.le)
        (mul_le_mul_of_nonneg_right (not_le.1 hlt).le one_cast_pos.le)
    -- both have the same units, hence the same shortest digits
    have habs : v.abs = p := by
      rw [abs_eq_rounded hv, hrounded]
      apply rounded_congr
      rw [roundUnits_units hv, ← hback]
      exact le_antisymm hle' hle
    refine hlt ((le_leadingPower_iff hpos.ne' k).1 ?_)
    rw [← shortest_abs tie hv, habs, hshort, leadingPower_one]

/-! ### Literals read back -/

theorem value?_whole (hne : ds ≠ []) (hd : ∀ c ∈ ds, c.isDigit) :
    value? ds = some (ofDigits ds []).toFloat := by
  rw [(IsNumeral.whole hne hd).value?_eq, decimal?_whole hne hd]
  rfl

theorem value?_point (hne : ds ≠ []) (hd : ∀ c ∈ ds, c.isDigit) (hf : ∀ c ∈ fs, c.isDigit) :
    value? (ds ++ '.' :: fs) = some (ofDigits ds fs).toFloat := by
  rw [(IsNumeral.point hd hf (.inl hne)).value?_eq, decimal?_point hd hf (.inl hne)]
  rfl

theorem value_ofDigits_replicate (h : 0 ≤ d.exponent) :
    (ofDigits (digits d.significand ++ List.replicate d.exponent.toNat '0') []).value =
      d.value := by
  obtain ⟨s, e⟩ := d
  obtain ⟨k, rfl⟩ := Int.eq_ofNat_of_zero_le h
  have hvalue : Nat.ofDigitChars 10 (digits s) 0 = s := Nat.ofDigitChars_ten_toDigits
  simp only [ofDigits, value, Int.toNat_natCast, List.append_nil,
    Nat.ofDigitChars_append, hvalue, Nat.ofDigitChars_replicate_zero, List.length_nil]
  push_cast
  rw [zpow_natCast]
  ring

theorem Decimal.positionalText_of_nonneg (h : 0 ≤ d.exponent) :
    positionalText false d = digits d.significand ++ List.replicate d.exponent.toNat '0' := by
  simp [positionalText, h]

theorem Decimal.positionalText_of_neg (h : d.exponent < 0) :
    positionalText false d = (Json.positionalNumeral false d).whole ++
      '.' :: (Json.positionalNumeral false d).fraction := by
  have hkeeps : positionalText false d = positionalText true d := by
    simp [positionalText, not_le.2 h]
  rw [hkeeps, ← Json.spelling_positionalNumeral false, Json.Numeral.spelling,
    if_neg (Json.fraction_positionalNumeral_ne_nil false d), Json.power_positionalNumeral,
    List.append_nil]

/-- Decimals with all places written out are literals and read back. -/
theorem Decimal.positionalText_spec (h : d.significand ≠ 0) :
    IsLiteral (positionalText false d) ∧ value? (positionalText false d) = some d.toFloat := by
  by_cases hexponent : 0 ≤ d.exponent
  · have hne : digits d.significand ++ List.replicate d.exponent.toNat '0' ≠ [] := by
      simp [Json.digits_ne_nil]
    have hall : ∀ c ∈ digits d.significand ++ List.replicate d.exponent.toNat '0', c.isDigit := by
      refine List.forall_mem_append.2 ⟨Json.digits_isDigit _, fun c hc => ?_⟩
      rw [List.eq_of_mem_replicate hc]
      decide
    rw [positionalText_of_nonneg hexponent]
    refine ⟨.whole hne hall, ?_⟩
    rw [value?_whole hne hall, toFloat_eq_rounded, toFloat_eq_rounded,
      value_ofDigits_replicate hexponent]
  · have hspelled : (Json.positionalNumeral false d).IsSpelled :=
      Json.isSpelled_positionalNumeral (.inl h)
    have hread : (Json.positionalNumeral false d).decimal = d := by
      rw [Json.decimal_positionalNumeral, Json.writtenOut, if_neg hexponent]
    rw [positionalText_of_neg (not_le.1 hexponent)]
    refine ⟨.point hspelled.whole_ne (Json.fraction_positionalNumeral_ne_nil false d)
      hspelled.whole hspelled.fraction, ?_⟩
    rw [value?_point hspelled.whole_ne hspelled.whole hspelled.fraction]
    simpa [ofDigits, Json.Numeral.decimal] using congrArg toFloat hread

/-! ### Special values -/

theorem cases_of_not_isFinite (h : v.isFinite = false) :
    v = nan ∨ v = 1.0 / 0.0 ∨ v = -1.0 / 0.0 := by
  have hpack := pack_unpack_toModel v
  change v.toModel.unpack.isFinite = false at h
  cases hv : v.toModel.unpack with
  | notANumber =>
    rw [hv] at hpack
    exact .inl (hpack.symm.trans rfl)
  | infinity s =>
    rw [hv] at hpack
    cases s with
    | positive => exact .inr (.inl (hpack.symm.trans rfl))
    | negative => exact .inr (.inr (hpack.symm.trans rfl))
  | zero s => simp [hv, Float.Model.UnpackedFloat.isFinite] at h
  | finite => simp [hv, Float.Model.UnpackedFloat.isFinite] at h

theorem isNaN_of_isFinite (hv : v.isFinite = true) : v.isNaN = false := by
  rw [eq_rounded hv, isNaN_rounded]

theorem eq_nan_of_isNaN (h : v.isNaN = true) : v = nan := by
  have hv : v.isFinite = false := by
    rw [← Bool.not_eq_true]
    exact fun hv => absurd h (ne_true_of_eq_false (isNaN_of_isFinite hv))
  rcases cases_of_not_isFinite hv with rfl | rfl | rfl
  · rfl
  · exact absurd h (by decide)
  · exact absurd h (by decide)

theorem isInf_of_isFinite (hv : v.isFinite = true) : v.isInf = false := by
  rw [eq_rounded hv, ← Bool.not_eq_true, isInf_rounded, roundUnits_units hv, not_le]
  exact units_lt_limit hv

theorem eq_zero_of_units_eq_zero (hv : v.isFinite = true) (h0 : units v = 0)
    (hsign : isNegative v = false) : v = 0.0 := by
  rw [eq_rounded hv, h0, hsign, rounded, Nat.cast_zero, roundUnits_zero]
  rfl

theorem isNaN_neg (h : v.isNaN = false) : (-v).isNaN = false := by
  cases hv : v.isFinite with
  | true => exact isNaN_of_isFinite (isFinite_neg hv)
  | false =>
    rcases cases_of_not_isFinite hv with rfl | rfl | rfl
    · exact absurd h (by decide)
    · decide
    · decide

theorem Decimal.Numeral.isNaN_of_value? {t : Text} (h : value? t = some v) : v.isNaN = false := by
  have hfloat : ∀ d : Decimal, d.toFloat.isNaN = false := by
    intro d
    rw [Decimal.toFloat_eq_rounded, isNaN_rounded]
  unfold value? at h
  split at h
  · obtain ⟨d, -, rfl⟩ := Option.map_eq_some_iff.1 h
    exact isNaN_neg (hfloat d)
  · obtain ⟨d, -, rfl⟩ := Option.map_eq_some_iff.1 h
    exact hfloat d

/-- A hundredth of a number is one, has its sign, and changes the sign with it. -/
theorem div_hundred_spec (h : v.isNaN = false) :
    (v / 100.0).isNaN = false ∧ isNegative (v / 100.0) = isNegative v ∧
      -v / 100.0 = -(v / 100.0) := by
  cases hv : v.isFinite with
  | true =>
    have hundred : (100.0 : Float).isFinite = true ∧ isNegative 100.0 = false ∧
      units 100.0 ≠ 0 := by decide +kernel
    obtain ⟨hfinite, hsign, hne⟩ := hundred
    rw [div_eq_rounded hv hfinite hne, div_eq_rounded (isFinite_neg hv) hfinite hne, hsign,
      isNegative_neg hv, units_neg hv, neg_rounded, Bool.xor_false, Bool.xor_false]
    exact ⟨isNaN_rounded, isNegative_rounded, rfl⟩
  | false =>
    rcases cases_of_not_isFinite hv with rfl | rfl | rfl
    · exact absurd h (by decide)
    · decide
    · decide

namespace NumberText

/-- A number that is written as a literal, perhaps with a minus sign. -/
def Positional (v : Float) : Prop := v == 0.0 ∨ 1e-6 ≤ v.abs ∧ v.abs < 1e21

instance : DecidablePred Positional := fun v =>
  inferInstanceAs (Decidable ((v == 0.0) = true ∨ 1e-6 ≤ v.abs ∧ v.abs < 1e21))

theorem Positional.isFinite (h : Positional v) : v.isFinite = true := by
  by_contra hv
  rcases cases_of_not_isFinite (by simpa using hv) with rfl | rfl | rfl <;>
    exact absurd h (by decide)

/-- Whether a number is written out depends on its units alone. -/
theorem positional_iff (hv : v.isFinite = true) :
    Positional v ↔ units v = 0 ∨ units 1e-6 ≤ units v ∧ units v < units 1e21 := by
  rw [Positional, beq_zero_iff hv,
    le_iff_units_le (by rfl) (isFinite_abs hv) (by rfl) (isNegative_abs hv),
    lt_iff_units_lt (isFinite_abs hv) (by rfl) (isNegative_abs hv) (by rfl), units_abs hv]

theorem positional_shortest_iff (hv : v.isFinite = true) (h0 : units v ≠ 0) :
    plainStyle.positional (shortest .up v).leadingPower = true ↔ Positional v := by
  have hlow : -6 ≤ (shortest .up v).leadingPower ↔ units 1e-6 ≤ units v :=
    le_leadingPower_shortest_iff hv h0 (by decide +kernel) (by rfl) (by decide +kernel)
  have hhigh : 21 ≤ (shortest .up v).leadingPower ↔ units 1e21 ≤ units v :=
    le_leadingPower_shortest_iff hv h0 (by decide +kernel) (by rfl) (by decide +kernel)
  rw [positional_iff hv, ← hlow, ← not_le, ← hhigh]
  simp only [plainStyle, h0, false_or, Bool.and_eq_true, decide_eq_true_eq]
  omega

/-! ### Written numbers -/

theorem text_of_isFinite (style : Style) (hv : v.isFinite = true) :
    style.text v =
      let magnitude := style.decimalText (if units v = 0 then ⟨0, 0⟩ else shortest style.tie v)
      if isNegative v && (units v != 0 || style.signsZero) then '-' :: magnitude
      else magnitude := by
  rw [Style.text, if_neg (ne_true_of_eq_false (isNaN_of_isFinite hv)),
    if_neg (ne_true_of_eq_false (isInf_of_isFinite hv))]
  by_cases h0 : units v = 0
  · simp only [if_pos ((beq_zero_iff hv).2 h0), h0, if_true, bne_self_eq_false, Bool.false_or,
      Bool.and_comm]
  · simp [mt (beq_zero_iff hv).1 h0, h0]

theorem plain_of_units_eq_zero (hv : v.isFinite = true) (h0 : units v = 0) : plain v = ['0'] := by
  have hzero : plainStyle.decimalText ⟨0, 0⟩ = ['0'] := by decide +kernel
  have hsigns : plainStyle.signsZero = false := rfl
  rw [plain, text_of_isFinite _ hv]
  simp [h0, hzero, hsigns]

theorem plain_of_units_ne_zero (hv : v.isFinite = true) (h0 : units v ≠ 0) :
    plain v = if isNegative v then '-' :: plainStyle.decimalText (shortest .up v)
      else plainStyle.decimalText (shortest .up v) := by
  have htie : plainStyle.tie = .up := rfl
  rw [plain, text_of_isFinite _ hv]
  simp [h0, htie]

theorem decimalText_shortest (h : Positional v) (h0 : units v ≠ 0) :
    plainStyle.decimalText (shortest .up v) = positionalText false (shortest .up v) := by
  rw [Style.decimalText, if_pos ((positional_shortest_iff h.isFinite h0).2 h)]
  rfl

theorem toFloat_shortest (hv : v.isFinite = true) (h0 : units v ≠ 0) :
    (shortest .up v).toFloat = v.abs := by
  rw [Decimal.toFloat_eq_rounded, abs_eq_rounded hv]
  apply rounded_congr
  rw [(shortest_spec .up hv h0).1, roundUnits_units hv]

/-- A number without a minus sign that is written out is a literal and reads back. -/
theorem plain_spec (h : Positional v) (hsign : isNegative v = false) :
    IsLiteral (plain v) ∧ value? (plain v) = some v := by
  have hv := h.isFinite
  by_cases h0 : units v = 0
  · rw [plain_of_units_eq_zero hv h0, eq_zero_of_units_eq_zero hv h0 hsign]
    exact ⟨Sanitizer.isLiteral_singleton rfl, by decide⟩
  · obtain ⟨-, hpos, -⟩ := shortest_spec .up hv h0
    obtain ⟨hliteral, hvalue⟩ := positionalText_spec hpos.ne'
    rw [plain_of_units_ne_zero hv h0, hsign, if_neg (by decide), decimalText_shortest h h0]
    refine ⟨hliteral, hvalue.trans ?_⟩
    rw [toFloat_shortest hv h0, abs_eq_rounded hv, ← hsign, ← eq_rounded hv]

theorem positional_neg : Positional (-v) ↔ Positional v := by
  cases hv : v.isFinite with
  | true => rw [positional_iff (isFinite_neg hv), units_neg hv, ← positional_iff hv]
  | false => rcases cases_of_not_isFinite hv with rfl | rfl | rfl <;> decide

theorem plain_neg (hv : v.isFinite = true) (h0 : units v ≠ 0) (hsign : isNegative v = false) :
    plain (-v) = '-' :: plain v := by
  have habs : (-v).abs = v.abs := by
    rw [abs_eq_rounded (isFinite_neg hv), units_neg hv, ← abs_eq_rounded hv]
  have hshort : shortest .up (-v) = shortest .up v := by
    rw [← shortest_abs .up (isFinite_neg hv), habs, shortest_abs .up hv]
  have h0' : units (-v) ≠ 0 := by rwa [units_neg hv]
  simp [plain_of_units_ne_zero hv h0, plain_of_units_ne_zero (isFinite_neg hv) h0', hshort,
    isNegative_neg hv, hsign]

/-- A number that is written out is a literal or a minus with one, unless it is the negative zero,
which is written like zero. -/
theorem exists_literal_plain (h : Positional v) (hsign : units v = 0 → isNegative v = false) :
    ∃ u w, IsLiteral u ∧ value? u = some w ∧
      (plain v = u ∧ v = w ∨ plain v = '-' :: u ∧ v = -w) := by
  have hv := h.isFinite
  cases hneg : isNegative v with
  | false =>
    obtain ⟨hliteral, hvalue⟩ := plain_spec h hneg
    exact ⟨plain v, v, hliteral, hvalue, .inl ⟨rfl, rfl⟩⟩
  | true =>
    have hpos : isNegative (-v) = false := by rw [isNegative_neg hv, hneg, Bool.not_true]
    have h0 : units (-v) ≠ 0 := by
      rw [units_neg hv]
      intro h0
      rw [hsign h0] at hneg
      cases hneg
    have hplain := plain_neg (isFinite_neg hv) h0 hpos
    rw [neg_neg_of_isFinite hv] at hplain
    obtain ⟨hliteral, hvalue⟩ := plain_spec (positional_neg.2 h) hpos
    exact ⟨_, -v, hliteral, hvalue, .inr ⟨hplain, (neg_neg_of_isFinite hv).symm⟩⟩

/-! ### Characters of written numbers -/

theorem isAllowed_of_mem_plain (h : Positional v) : ∀ c ∈ plain v, isAllowed c = true := by
  have hv := h.isFinite
  by_cases h0 : units v = 0
  · rw [plain_of_units_eq_zero hv h0]
    exact List.forall_mem_singleton.2 rfl
  · obtain ⟨-, hpos, -⟩ := shortest_spec .up hv h0
    have hliteral := (positionalText_spec hpos.ne').1.isAllowed
    rw [plain_of_units_ne_zero hv h0, decimalText_shortest h h0]
    split
    · exact List.forall_mem_cons.2 ⟨rfl, hliteral⟩
    · exact hliteral

/-- A power of ten follows a literal. -/
theorem exponentText_eq (d : Decimal) :
    ∃ mantissa sign, exponentText d = mantissa ++ 'e' :: sign :: digits d.leadingPower.natAbs ∧
      IsLiteral mantissa ∧ (sign = '+' ∨ sign = '-') := by
  have hdigits := Json.digits_isDigit d.significand
  refine ⟨_, _, rfl, ?_, ?_⟩
  · split
    · rename_i first second rest heq
      rw [heq] at hdigits
      obtain ⟨hfirst, hmore⟩ := List.forall_mem_cons.1 hdigits
      exact .point (List.cons_ne_nil first []) (by simp) (List.forall_mem_singleton.2 hfirst) hmore
    · exact .whole (Json.digits_ne_nil _) hdigits
  · split
    · exact .inr rfl
    · exact .inl rfl

theorem plain_infinity : plain (1.0 / 0.0) = ['I', 'n', 'f', 'i', 'n', 'i', 't', 'y'] := by
  decide

theorem plain_negativeInfinity :
    plain (-1.0 / 0.0) = ['-', 'I', 'n', 'f', 'i', 'n', 'i', 't', 'y'] := by
  decide

/-- A finite number that is not written out has a power of ten. -/
theorem exists_power_of_not_positional (h : ¬Positional v) (hv : v.isFinite = true) :
    ∃ front rest, plain v = front ++ 'e' :: rest ∧ ∀ x ∈ front, isAllowed x = true := by
  have h0 : units v ≠ 0 := fun h0 => h ((positional_iff hv).2 (.inl h0))
  obtain ⟨front, sign, htext, hliteral, -⟩ := exponentText_eq (shortest .up v)
  have hexponent : plainStyle.decimalText (shortest .up v) =
      front ++ 'e' :: sign :: digits (shortest .up v).leadingPower.natAbs := by
    rw [Style.decimalText, if_neg (mt (positional_shortest_iff hv h0).1 h), htext]
  rw [plain_of_units_ne_zero hv h0, hexponent]
  split
  · exact ⟨'-' :: front, _, rfl, List.forall_mem_cons.2 ⟨rfl, hliteral.isAllowed⟩⟩
  · exact ⟨front, _, rfl, hliteral.isAllowed⟩

/-- A number that is not written out has a letter in it. -/
theorem exists_letter_of_not_positional (h : ¬Positional v) (hnan : v.isNaN = false) :
    ∃ front c rest, plain v = front ++ c :: rest ∧ (∀ x ∈ front, isAllowed x = true) ∧
      (c = 'e' ∨ c = 'I') := by
  cases hv : v.isFinite with
  | false =>
    rcases cases_of_not_isFinite hv with rfl | rfl | rfl
    · exact absurd hnan (by decide)
    · exact ⟨[], 'I', _, plain_infinity, by simp, .inr rfl⟩
    · exact ⟨['-'], 'I', _, plain_negativeInfinity, List.forall_mem_singleton.2 rfl, .inr rfl⟩
  | true =>
    obtain ⟨front, rest, hplain, hfront⟩ := exists_power_of_not_positional h hv
    exact ⟨front, 'e', rest, hplain, hfront, .inl rfl⟩

theorem foreign?_plain_of_isFinite (h : ¬Positional v) (hv : v.isFinite = true) :
    foreign? (plain v) = some 'e' := by
  obtain ⟨front, rest, hplain, hfront⟩ := exists_power_of_not_positional h hv
  rw [hplain, ← List.singleton_append, foreign?_append, foreign?_append, foreign?_eq_none hfront]
  rfl

theorem foreign?_plain_of_positional (h : Positional v) : foreign? (plain v) = none :=
  foreign?_eq_none (isAllowed_of_mem_plain h)

theorem foreign?_plain_of_not_positional (h : ¬Positional v) (hnan : v.isNaN = false) :
    foreign? (plain v) = some 'e' ∨ foreign? (plain v) = some 'I' := by
  obtain ⟨front, c, rest, hplain, hfront, hc⟩ := exists_letter_of_not_positional h hnan
  rw [hplain, ← List.singleton_append, foreign?_append, foreign?_append, foreign?_eq_none hfront]
  rcases hc with rfl | rfl
  · exact .inl rfl
  · exact .inr rfl

/-! ### Signs, points and letters of written numbers -/

/-- The texts of numbers without their sign. -/
inductive IsMagnitude : Text → Prop
  | literal {u : Text} : IsLiteral u → IsMagnitude u
  | power {u ds : Text} {sign : Char} : IsLiteral u → sign = '+' ∨ sign = '-' →
      (∀ c ∈ ds, c.isDigit) → IsMagnitude (u ++ 'e' :: sign :: ds)
  | infinity : IsMagnitude ['I', 'n', 'f', 'i', 'n', 'i', 't', 'y']
  | nan : IsMagnitude ['N', 'a', 'N']

theorem isMagnitude_decimalText (h : d.significand ≠ 0) :
    IsMagnitude (plainStyle.decimalText d) := by
  unfold Style.decimalText
  split
  · exact .literal (positionalText_spec h).1
  · obtain ⟨mantissa, sign, heq, hmantissa, hsign⟩ := exponentText_eq d
    rw [heq]
    exact .power hmantissa hsign (Json.digits_isDigit _)

theorem plain_nan : plain nan = ['N', 'a', 'N'] := by
  decide

/-- Every number is written as a magnitude, after a minus sign if it is negative and not zero. -/
theorem plain_cases (v : Float) :
    (isNegative v = false ∧ IsMagnitude (plain v)) ∨
      (isNegative v = true ∧ (plain v = ['0'] ∨ ∃ m, plain v = '-' :: m ∧ IsMagnitude m)) := by
  cases hv : v.isFinite with
  | false =>
    rcases cases_of_not_isFinite hv with rfl | rfl | rfl
    · exact .inl ⟨by decide, by rw [plain_nan]; exact .nan⟩
    · exact .inl ⟨by decide, by rw [plain_infinity]; exact .infinity⟩
    · exact .inr ⟨by decide, .inr ⟨_, plain_negativeInfinity, .infinity⟩⟩
  | true =>
    by_cases h0 : units v = 0
    · rw [plain_of_units_eq_zero hv h0]
      cases isNegative v with
      | false => exact .inl ⟨rfl, .literal (isLiteral_singleton rfl)⟩
      | true => exact .inr ⟨rfl, .inl rfl⟩
    · obtain ⟨-, hpos, -⟩ := shortest_spec .up hv h0
      have hmagnitude := isMagnitude_decimalText hpos.ne'
      have hplain := plain_of_units_ne_zero hv h0
      cases hsign : isNegative v with
      | false =>
        rw [if_neg (by simp [hsign])] at hplain
        rw [hplain]
        exact .inl ⟨rfl, hmagnitude⟩
      | true =>
        rw [if_pos hsign] at hplain
        exact .inr ⟨rfl, .inr ⟨_, hplain, hmagnitude⟩⟩

theorem IsMagnitude.ne_nil {m : Text} (h : IsMagnitude m) : m ≠ [] := by
  cases h with
  | literal hu =>
    obtain ⟨c, t, rfl, -⟩ := hu.exists_cons
    exact List.cons_ne_nil c t
  | power => simp
  | infinity | nan => exact List.cons_ne_nil _ _

theorem plain_ne_nil (v : Float) : plain v ≠ [] := by
  rcases plain_cases v with ⟨-, h⟩ | ⟨-, h | ⟨m, h, -⟩⟩
  · exact h.ne_nil
  · rw [h]
    exact List.cons_ne_nil _ _
  · rw [h]
    exact List.cons_ne_nil _ _

end NumberText

end KeypadCalc
