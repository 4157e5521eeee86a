import KeypadCalc.History.Codec
import KeypadCalc.Proofs.Json.Decimal

/-! The numbers in a stored history. A result is written with its shortest digits and read by
scaling them, which rounds up to three times; a time stamp is written and read exactly. -/

namespace KeypadCalc.Entry

open Binary64 Decimal Json
open Json.Numeral (scale)

variable {v : Float}

/-! ### Results -/

/-- The decimal that is written for the magnitude of a result. -/
def written (v : Float) : Decimal := if units v = 0 then ⟨0, 0⟩ else shortest .even v

/-- The number that is written for a finite result. -/
def resultNumeral (v : Float) : Numeral :=
  if numberStyle.positional (written v).leadingPower then
    positionalNumeral (isNegative v) (written v)
  else exponentNumeral (isNegative v) (written v)

/-- The decimal that is read of a result: all its digits and their power of ten. -/
def spelled (v : Float) : Decimal := (resultNumeral v).decimal

/-- The float that is read of the digits of a finite result. -/
def reread (v : Float) : Float :=
  let w := (scale (spelled v).significand.toUInt64.toFloat (spelled v).exponent).getD 0.0
  if isNegative v then -w else w

theorem writable_written (hv : v.isFinite = true) : Writable (written v) := by
  unfold written
  split
  · exact .inr rfl
  · rename_i h0
    exact .inl (shortest_spec .even hv h0).2.1.ne'

theorem positional_of_zero (h : (written v).significand = 0) (hv : v.isFinite = true) :
    numberStyle.positional (written v).leadingPower = true := by
  rcases writable_written hv with hne | heq
  · exact absurd h hne
  · rw [heq]
    decide +kernel

theorem negative_resultNumeral (v : Float) : (resultNumeral v).negative = isNegative v := by
  unfold resultNumeral positionalNumeral exponentNumeral
  simp only
  split_ifs <;> rfl

theorem isSpelled_resultNumeral (hv : v.isFinite = true) : (resultNumeral v).IsSpelled := by
  unfold resultNumeral
  split
  · exact isSpelled_positionalNumeral (writable_written hv)
  · rename_i hpower
    refine isSpelled_exponentNumeral fun h0 => hpower (positional_of_zero h0 hv)

theorem decimalText_written (v : Float) :
    numberStyle.decimalText (written v) = (resultNumeral v).spelling := by
  unfold Style.decimalText resultNumeral
  split
  · rw [spelling_positionalNumeral]
    rfl
  · rw [spelling_exponentNumeral]

theorem text_result (hv : v.isFinite = true) : numberStyle.text v = (resultNumeral v).text := by
  have hwritten : numberStyle.text v = if isNegative v then
      '-' :: numberStyle.decimalText (written v) else numberStyle.decimalText (written v) := by
    rw [Style.text, if_neg (by rw [eq_rounded hv, isNaN_rounded]; decide), if_neg]
    · by_cases h0 : units v = 0
      · rw [if_pos ((beq_zero_iff hv).2 h0), written, if_pos h0]
        rfl
      · rw [if_neg (fun h => h0 ((beq_zero_iff hv).1 h)), written, if_neg h0]
        rfl
    · rw [eq_rounded hv, isInf_rounded, roundUnits_units hv, not_le]
      exact units_lt_limit hv
  rw [hwritten, decimalText_written, Numeral.text, negative_resultNumeral]

theorem spelled_eq (v : Float) : spelled v =
    if numberStyle.positional (written v).leadingPower then writtenOut (written v)
    else written v := by
  unfold spelled resultNumeral
  split
  · exact decimal_positionalNumeral ..
  · exact decimal_exponentNumeral ..

/-- A whole number that is written out has sixteen digits at most, and then a zero. -/
theorem significand_writtenOut_le {d : Decimal}
    (h : numberStyle.positional d.leadingPower = true) (hle : d.significand ≤ 10 ^ 17) :
    (writtenOut d).significand ≤ 10 ^ 17 := by
  unfold writtenOut
  split
  · rename_i hpos
    obtain ⟨k, hk⟩ : ∃ k : ℕ, d.exponent = k := ⟨d.exponent.toNat, by omega⟩
    have hdigits : 0 < digitCount d.significand := by
      rw [digitCount_eq]
      exact Nat.length_toDigits_pos
    have hpower : digitCount d.significand + k ≤ 16 := by
      simp only [numberStyle, leadingPower, hk, Bool.and_eq_true, decide_eq_true_eq] at h
      omega
    simp only [hk, Int.toNat_natCast]
    calc
      d.significand * 10 ^ (k + 1) ≤ 10 ^ digitCount d.significand * 10 ^ (k + 1) :=
        Nat.mul_le_mul_right _ (lt_pow_digitCount _).le
      _ = 10 ^ (digitCount d.significand + (k + 1)) := (pow_add ..).symm
      _ ≤ 10 ^ 17 := Nat.pow_le_pow_right (by decide) (by omega)
  · exact hle

theorem significand_written_le (hv : v.isFinite = true) : (written v).significand ≤ 10 ^ 17 := by
  unfold written
  split
  · decide
  · rename_i h0
    exact (shortest_spec .even hv h0).2.2

theorem significand_spelled_lt (hv : v.isFinite = true) :
    (spelled v).significand < UInt64.size := by
  have hle : (spelled v).significand ≤ 10 ^ 17 := by
    rw [spelled_eq]
    split
    · rename_i hpositional
      exact significand_writtenOut_le hpositional (significand_written_le hv)
    · exact significand_written_le hv
  exact hle.trans_lt (by decide)

/-- What is written for a finite result can be scaled back. -/
theorem isSome_scale_spelled (hv : v.isFinite = true) :
    (scale (spelled v).significand.toUInt64.toFloat (spelled v).exponent).isSome = true := by
  by_cases h0 : units v = 0
  · have hspelled : spelled v = ⟨0, -1⟩ := by
      rw [spelled_eq, written, if_pos h0]
      decide +kernel
    rw [hspelled]
    exact Numeral.isSome_scale_of_neg _ (by decide)
  · have hwritten : written v = shortest .even v := if_neg h0
    have hshortest := Numeral.isSome_scale_shortest hv h0
    rw [spelled_eq, hwritten]
    split
    · unfold writtenOut
      split
      · exact Numeral.isSome_scale_of_neg _ (show (-1 : ℤ) < 0 by decide)
      · exact hshortest
    · exact hshortest

theorem scale_spelled (hv : v.isFinite = true) :
    scale (spelled v).significand.toUInt64.toFloat (spelled v).exponent =
      some ((scale (spelled v).significand.toUInt64.toFloat (spelled v).exponent).getD 0.0) :=
  (Option.some_get (isSome_scale_spelled hv)).symm.trans (by rw [Option.get_eq_getD])

theorem toFloat?_resultNumeral (hv : v.isFinite = true) :
    (resultNumeral v).toFloat? = some (reread v) := by
  rw [Numeral.toFloat?_eq (significand_spelled_lt hv), negative_resultNumeral]
  change (scale (spelled v).significand.toUInt64.toFloat (spelled v).exponent).map _ = _
  rw [scale_spelled hv]
  rfl

/-! ### Results that are read exactly -/

theorem value_writtenOut (d : Decimal) : (writtenOut d).value = d.value := by
  unfold writtenOut
  split
  · rename_i hpos
    obtain ⟨k, hk⟩ : ∃ k : ℕ, d.exponent = k := ⟨d.exponent.toNat, by omega⟩
    simp only [value, hk, Int.toNat_natCast]
    push_cast
    rw [pow_succ, zpow_neg_one, zpow_natCast]
    field_simp
  · rfl

theorem roundUnits_spelled (hv : v.isFinite = true) :
    roundUnits ((spelled v).value * one) = units v := by
  have hwritten : roundUnits ((written v).value * one) = units v := by
    unfold written
    split
    · rename_i h0
      simp only [value, h0, Nat.cast_zero, zero_mul, roundUnits_zero]
    · rename_i h0
      exact (shortest_spec .even hv h0).1
  rw [spelled_eq]
  split
  · rw [value_writtenOut, hwritten]
  · exact hwritten

/-- Scaling rounds once only if the digits and the power of ten are floats themselves. -/
theorem scale_eq_rounded {d : Decimal} (hn : d.significand ≤ 2 ^ 53) (hp : d.exponent.natAbs ≤ 22)
    (hlt : roundUnits (d.value * one) < limit) :
    scale d.significand.toUInt64.toFloat d.exponent = some (rounded false (d.value * one)) := by
  obtain ⟨n, p⟩ := d
  simp only at hn hp ⊢
  have hfits : n < UInt64.size := hn.trans_lt (by decide)
  have hmax : p.natAbs ≤ Numeral.maxPower := hp.trans (by decide)
  have hdigits : roundUnits n = n := (representable_of_le hn).roundUnits_eq
  have hpower : roundUnits (10 ^ p.natAbs : ℕ) = 10 ^ p.natAbs := by
    have hfive : 5 ^ p.natAbs ≤ 2 ^ 53 :=
      (Nat.pow_le_pow_right (by decide) hp).trans (by decide)
    have hrep := (representable_of_le hfive).mul_two_pow p.natAbs
    rw [← mul_pow] at hrep
    exact hrep.roundUnits_eq
  rcases lt_or_ge p 0 with hneg | hpos
  · obtain ⟨k, rfl⟩ : ∃ k : ℕ, p = -k := ⟨p.natAbs, by omega⟩
    rw [Int.natAbs_neg, Int.natAbs_natCast] at hmax hpower
    rw [Numeral.scale_of_neg hneg (by omega), Int.natAbs_neg, Int.natAbs_natCast,
      Numeral.div_powerOfTen_eq hfits hmax, hdigits, hpower, value, zpow_neg, zpow_natCast]
    push_cast
    rw [div_eq_mul_inv]
  · obtain ⟨k, rfl⟩ : ∃ k : ℕ, p = k := ⟨p.natAbs, by omega⟩
    rw [Int.natAbs_natCast] at hmax hpower
    have hvalue : (⟨n, k⟩ : Decimal).value = (n * 10 ^ k : ℕ) := by simp [value]
    have hproduct : n.toUInt64.toFloat * Numeral.powerOfTen k =
        rounded false ((⟨n, k⟩ : Decimal).value * one) := by
      rw [Numeral.mul_powerOfTen_eq hfits hmax, hdigits, hpower, hvalue]
    rw [Numeral.scale_of_nonneg hpos (by omega), Int.natAbs_natCast, hproduct, if_neg]
    rw [isInf_rounded]
    exact not_le.2 hlt

/-- A result is read exactly if its digits are few and the point is not far from them. -/
theorem reread_eq_of_le (hv : v.isFinite = true) (hn : (spelled v).significand ≤ 2 ^ 53)
    (hp : (spelled v).exponent.natAbs ≤ 22) : reread v = v := by
  have hround := roundUnits_spelled hv
  have hscale := scale_eq_rounded hn hp (hround.trans_lt (units_lt_limit hv))
  have hmagnitude : rounded false ((spelled v).value * one) = rounded false (units v) :=
    rounded_congr (hround.trans (roundUnits_units hv).symm)
  have hfin : (rounded false (units v)).isFinite = true := by
    rw [isFinite_rounded, roundUnits_units hv]
    exact units_lt_limit hv
  unfold reread
  simp only [hscale, Option.getD_some, hmagnitude]
  conv_rhs => rw [eq_rounded hv]
  cases isNegative v
  · rfl
  · rw [if_pos rfl, neg_eq_rounded hfin, isNegative_rounded,
      units_rounded (isFinite_rounded.1 hfin), roundUnits_units hv]
    rfl

/-! ### Time stamps -/

/-- The number that is written for a time stamp. -/
def timeNumeral (t : Int64) : Numeral :=
  ⟨decide (t.toInt < 0), digits t.toInt.natAbs, [], none⟩

theorem text_time (t : Int64) : integerText t.toInt = (timeNumeral t).text := by
  unfold timeNumeral Numeral.text Numeral.spelling
  cases t.toInt <;> simp [integerText]

theorem isSpelled_timeNumeral (t : Int64) : (timeNumeral t).IsSpelled := by
  refine ⟨digits_isDigit _, digits_ne_nil _, ?_, by simp [timeNumeral]⟩
  intro hzero
  by_cases h0 : t.toInt.natAbs = 0
  · simp only [timeNumeral, h0]
    rfl
  · exact absurd hzero (head?_digits h0)

theorem timeOf?_timeNumeral (t : Int64) : timeOf? (.number (timeNumeral t)) = some t := by
  have hvalue : Nat.ofDigitChars 10 (digits t.toInt.natAbs) 0 = t.toInt.natAbs :=
    Nat.ofDigitChars_ten_toDigits
  have hint : (timeNumeral t).toInt? = some t.toInt := by
    simp only [Numeral.toInt?, timeNumeral, hvalue, List.isEmpty_nil, Option.isSome_none,
      Bool.not_true, Bool.false_or, Bool.and_eq_true, decide_eq_true_eq, beq_iff_eq]
    rw [if_neg (by omega)]
    congr 1
    split <;> omega
  have hbounds : Int64.minValue.toInt ≤ t.toInt ∧ t.toInt ≤ Int64.maxValue.toInt :=
    ⟨t.minValue_le_toInt, t.toInt_le⟩
  simp only [timeOf?, hint, Option.bind_eq_bind, Option.bind_some, if_pos hbounds,
    Int64.ofInt_toInt]

end KeypadCalc.Entry
