import KeypadCalc.Proofs.Json.Numeral
import KeypadCalc.Proofs.Json.Token

/-! Decimals as they are written, read as numbers. The digits before and after the point make up
the significand again, and the places after the point take their part from the exponent. A whole
number that is written out gets a zero after the point and so has one digit more. -/

namespace KeypadCalc.Json

open Decimal

variable {d : Decimal} {negative : Bool}

namespace Numeral

/-- All the digits of a number, with the power of ten of the last one. -/
def decimal (n : Numeral) : Decimal :=
  ⟨Nat.ofDigitChars 10 (n.whole ++ n.fraction) 0, -n.fraction.length + n.power.getD 0⟩

/-- A number whose digits fit into 64 bits is scaled as a whole. -/
theorem toFloat?_eq {n : Numeral} (h : n.decimal.significand < UInt64.size) :
    n.toFloat? = (scale n.decimal.significand.toUInt64.toFloat n.decimal.exponent).map
      fun v => if n.negative then -v else v := by
  have hall : Nat.ofDigitChars 10 n.fraction (Nat.ofDigitChars 10 n.whole 0) < UInt64.size := by
    rw [← Nat.ofDigitChars_append]
    exact h
  have hwhole := absorb_eq ((le_ofDigitChars n.fraction _).trans_lt hall)
  have hfraction := absorb_eq hall
  simp only [toFloat?, hwhole, hfraction, decimal, Nat.ofDigitChars_append, List.length_nil,
    Nat.sub_zero, Nat.cast_zero, zero_sub]

end Numeral

/-! ### Positional numbers -/

/-- A decimal with all places written out, as a number. -/
def positionalNumeral (negative : Bool) (d : Decimal) : Numeral :=
  let ds := digits d.significand
  let places := (-d.exponent).toNat
  if 0 ≤ d.exponent then ⟨negative, ds ++ List.replicate d.exponent.toNat '0', ['0'], none⟩
  else if places < ds.length then
    ⟨negative, ds.take (ds.length - places), ds.drop (ds.length - places), none⟩
  else ⟨negative, ['0'], List.replicate (places - ds.length) '0' ++ ds, none⟩

/-- A decimal with its power of ten, as a number. -/
def exponentNumeral (negative : Bool) (d : Decimal) : Numeral :=
  ⟨negative, (digits d.significand).take 1, (digits d.significand).drop 1, some d.leadingPower⟩

theorem digits_ne_nil (n : ℕ) : digits n ≠ [] := Nat.toDigits_ne_nil

theorem fraction_positionalNumeral_ne_nil (negative : Bool) (d : Decimal) :
    (positionalNumeral negative d).fraction ≠ [] := by
  unfold positionalNumeral
  simp only
  split
  · simp
  · split
    · rename_i hneg hlt
      rw [ne_eq, List.drop_eq_nil_iff]
      omega
    · simp [digits_ne_nil]

@[simp] theorem power_positionalNumeral (negative : Bool) (d : Decimal) :
    (positionalNumeral negative d).power = none := by
  simp only [positionalNumeral]
  split
  · rfl
  · split <;> rfl

theorem spelling_positionalNumeral (negative : Bool) (d : Decimal) :
    (positionalNumeral negative d).spelling = positionalText true d := by
  have hne := digits_ne_nil d.significand
  unfold positionalNumeral positionalText
  simp only [if_true]
  split
  · simp [Numeral.spelling]
  · split
    · rename_i hneg hlt
      have hdrop : (digits d.significand).drop
          ((digits d.significand).length - (-d.exponent).toNat) ≠ [] := by
        rw [ne_eq, List.drop_eq_nil_iff]
        omega
      simp [Numeral.spelling, hdrop]
    · simp [Numeral.spelling, hne]

theorem spelling_exponentNumeral (negative : Bool) (d : Decimal) :
    (exponentNumeral negative d).spelling = exponentText d := by
  have hne := digits_ne_nil d.significand
  unfold exponentNumeral exponentText Numeral.spelling
  match hds : digits d.significand with
  | [] => exact absurd hds hne
  | [first] => rfl
  | first :: second :: rest => rfl

/-- Digits begin with a zero only for zero itself. -/
theorem head?_digits {n : ℕ} (hn : n ≠ 0) : (digits n).head? ≠ some '0' := by
  induction n using Nat.strong_induction_on with
  | _ n ih =>
    change (Nat.toDigits 10 n).head? ≠ some '0'
    rw [Nat.toDigits_eq_if (by decide)]
    split
    · rename_i hlt
      have hdigit : ∀ m < 10, m ≠ 0 → [Nat.digitChar m].head? ≠ some '0' := by decide
      exact hdigit n hlt hn
    · rename_i hge
      have hdiv : n / 10 ≠ 0 := by omega
      rw [List.head?_append_of_ne_nil _ Nat.toDigits_ne_nil]
      exact ih (n / 10) (by omega) hdiv

/-- A decimal that is written as a number: it has no zeros before its digits, and zero is written
without a power of ten. -/
def Writable (d : Decimal) : Prop := d.significand ≠ 0 ∨ d = ⟨0, 0⟩

theorem isSpelled_positionalNumeral (h : Writable d) :
    (positionalNumeral negative d).IsSpelled := by
  have hdigit := digits_isDigit d.significand
  have hne := digits_ne_nil d.significand
  have hzero : ∀ c ∈ ['0'], c.isDigit = true := List.forall_mem_singleton.2 rfl
  have hzeros : ∀ k, ∀ c ∈ List.replicate k '0', c.isDigit = true := by
    intro k c hc
    rw [List.eq_of_mem_replicate hc]
    decide
  rcases h with hpos | rfl
  · have hhead := head?_digits hpos
    unfold positionalNumeral
    simp only
    split
    · refine ⟨?_, by simp [hne], ?_, hzero⟩
      · intro c hc
        exact (List.mem_append.1 hc).elim (hdigit c) (hzeros _ c)
      · intro hfirst
        rw [List.head?_append_of_ne_nil _ hne] at hfirst
        exact absurd hfirst hhead
    · split
      · rename_i hneg hlt
        have htake : (digits d.significand).take
            ((digits d.significand).length - (-d.exponent).toNat) ≠ [] := by
          rw [ne_eq, List.take_eq_nil_iff]
          simp only [hne, or_false]
          omega
        refine ⟨fun c hc => hdigit c (List.mem_of_mem_take hc), htake, ?_,
          fun c hc => hdigit c (List.mem_of_mem_drop hc)⟩
        intro hzero
        rw [List.head?_take, if_neg (by omega)] at hzero
        exact absurd hzero hhead
      · refine ⟨hzero, by simp, fun _ => rfl, ?_⟩
        intro c hc
        exact (List.mem_append.1 hc).elim (hzeros _ c) (hdigit c)
  · exact ⟨hzero, by simp [positionalNumeral, digits], fun _ => rfl, hzero⟩

theorem isSpelled_exponentNumeral (h : d.significand ≠ 0) :
    (exponentNumeral negative d).IsSpelled := by
  have hdigit := digits_isDigit d.significand
  have hne := digits_ne_nil d.significand
  refine ⟨fun c hc => hdigit c (List.mem_of_mem_take hc), by simp [exponentNumeral, hne], ?_,
    fun c hc => hdigit c (List.mem_of_mem_drop hc)⟩
  intro hzero
  rw [exponentNumeral, List.head?_take, if_neg (by decide)] at hzero
  exact absurd hzero (head?_digits h)

/-! ### The digits that are read -/

/-- A decimal with all the digits that are written for it where it is written out. -/
def writtenOut (d : Decimal) : Decimal :=
  if 0 ≤ d.exponent then ⟨d.significand * 10 ^ (d.exponent.toNat + 1), -1⟩ else d

theorem decimal_positionalNumeral (negative : Bool) (d : Decimal) :
    (positionalNumeral negative d).decimal = writtenOut d := by
  have hvalue : Nat.ofDigitChars 10 (digits d.significand) 0 = d.significand :=
    Nat.ofDigitChars_ten_toDigits
  have hzero : ∀ cs, Nat.ofDigitChars 10 ('0' :: cs) 0 = Nat.ofDigitChars 10 cs 0 := fun cs => rfl
  obtain ⟨s, e⟩ := d
  unfold positionalNumeral writtenOut Numeral.decimal
  simp only at hvalue ⊢
  split
  · rename_i hpos
    simp only [Nat.ofDigitChars_append, hvalue, Nat.ofDigitChars_replicate_zero, List.length_cons,
      List.length_nil, Option.getD_none, Decimal.mk.injEq]
    refine ⟨?_, rfl⟩
    rw [Nat.ofDigitChars_cons, Nat.ofDigitChars_nil, pow_succ]
    simp
    ring
  · split
    · rename_i hneg hlt
      simp only [List.take_append_drop, hvalue, Option.getD_none, List.length_drop,
        Decimal.mk.injEq, true_and]
      omega
    · rename_i hneg hge
      simp only [List.cons_append, List.nil_append, hzero, Nat.ofDigitChars_append,
        Nat.ofDigitChars_replicate_zero, Nat.mul_zero, hvalue, List.length_append,
        List.length_replicate, Option.getD_none, Decimal.mk.injEq, true_and]
      omega

theorem decimal_exponentNumeral (negative : Bool) (d : Decimal) :
    (exponentNumeral negative d).decimal = d := by
  have hvalue : Nat.ofDigitChars 10 (digits d.significand) 0 = d.significand :=
    Nat.ofDigitChars_ten_toDigits
  have hlength : 0 < (digits d.significand).length := Nat.length_toDigits_pos
  obtain ⟨s, e⟩ := d
  simp only [exponentNumeral, Numeral.decimal, List.take_append_drop, Option.getD_some,
    leadingPower, digitCount_eq, List.length_drop, Decimal.mk.injEq] at hvalue hlength ⊢
  refine ⟨hvalue, ?_⟩
  unfold digits at hlength ⊢
  omega

end KeypadCalc.Json
