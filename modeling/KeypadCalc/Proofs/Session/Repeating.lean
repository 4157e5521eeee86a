import KeypadCalc.Proofs.Keypad.Percent
import KeypadCalc.Proofs.Quantizing.Repeating
import KeypadCalc.Proofs.Session.Separation

/-! Going on from a result. The text that a commit leaves is worth the result if the result is
written out, and is refused if it is written with a power of ten. Committing that text rounds the
result once more. Main statement: what is shown after a commit, and what the next one gives. -/

namespace KeypadCalc

open Binary64 (isNegative units)
open NumberText (Positional plain)

namespace Evaluation

variable {raw : Text} {v : Float}

/-! ### A written number as a text to evaluate -/

theorem sanitize_plain (h : Positional v) (hsign : units v = 0 → isNegative v = false) :
    Sanitizer.sanitize (plain v) = .ok (plain v) ∧ Text.isBlankText (plain v) = false := by
  obtain ⟨u, w, hliteral, -, hplain⟩ := NumberText.exists_literal_plain h hsign
  obtain ⟨front, hplain, hfront⟩ : ∃ front, plain v = front ++ u ∧ '%' ∉ front := by
    rcases hplain with ⟨hplain, -⟩ | ⟨hplain, -⟩
    · exact ⟨[], hplain, List.not_mem_nil⟩
    · exact ⟨['-'], hplain, by decide⟩
  have hnotMem : '%' ∉ plain v := by
    rw [hplain, List.mem_append, not_or]
    exact ⟨hfront, hliteral.percent_notMem⟩
  obtain ⟨c, t, hcons, hc⟩ := hliteral.exists_cons
  refine ⟨?_, ?_⟩
  · rw [Sanitizer.sanitize_eq_ok (NumberText.isAllowed_of_mem_plain h),
      (Sanitizer.noPercentages_of_notMem hnotMem).expandPercents_eq]
  · rw [hplain]
    exact Keypad.isBlankText_append_of_head hcons (Lexeme.isBlank_of_isDigit (by simp [hc]))

theorem map_value_parse_plain (h : Positional v) (hsign : units v = 0 → isNegative v = false) :
    (Expr.parse (plain v)).map Expr.value = .ok v := by
  obtain ⟨u, w, hliteral, hvalue, ⟨hplain, rfl⟩ | ⟨hplain, rfl⟩⟩ :=
    NumberText.exists_literal_plain h hsign
  all_goals
    rw [hplain]
    have hu := Percent.isNumeral_of_isLiteral hliteral
  · rw [Expr.parse_numeral hu hvalue]
    rfl
  · have hminus : Token.ofSymbol? '-' = some .minus := rfl
    refine Expr.map_value_parse_eq_ok_iff.2
      ⟨[.minus, .number w], ?_, _, .ofProduct (.ofFactor (.negative .number)), rfl⟩
    exact (hasTokens_append_symbol (t := []) hminus).2
      ⟨[], _, hasTokens_nil, (hasTokens_numeral hu hvalue).2 rfl, rfl⟩

/-- The text of a number that is written out is worth that number. -/
theorem unrounded_plain (h : Positional v) (hsign : units v = 0 → isNegative v = false) :
    unrounded (plain v) = .ok (some v) := by
  obtain ⟨hsanitize, hblank⟩ := sanitize_plain h hsign
  exact unrounded_of_value hsanitize hblank (map_value_parse_plain h hsign) h.isFinite

theorem evaluate_plain (h : Positional v) (hsign : units v = 0 → isNegative v = false) :
    evaluate (plain v) = .ok (roundResult v) :=
  evaluate_eq_ok_iff.2
    (.inr ⟨v, unrounded_plain h hsign, isFinite_roundResult_of_positional h, rfl⟩)

/-- The power of ten of a finite number is refused at its letter. -/
theorem sanitize_plain_of_not_positional (h : ¬Positional v) (hv : v.isFinite = true) :
    Sanitizer.sanitize (plain v) = .error (.invalidCharacter 'e') :=
  Sanitizer.sanitize_eq_error_iff.2 ⟨'e', NumberText.foreign?_plain_of_isFinite h hv, rfl⟩

/-- A number that is not written out has a letter in its text, and the text is refused. -/
theorem sanitize_plain_ne_ok (h : ¬Positional v) :
    Sanitizer.sanitize (plain v) ≠ .ok (plain v) := by
  intro hsanitize
  have hnone := (Sanitizer.sanitize_eq_ok_iff.1 hsanitize).1
  cases hnan : v.isNaN with
  | true =>
    rw [eq_nan_of_isNaN hnan, NumberText.plain_nan] at hnone
    exact absurd hnone (by decide)
  | false =>
    rcases NumberText.foreign?_plain_of_not_positional h hnan with hletter | hletter
    · cases hnone.symm.trans hletter
    · cases hnone.symm.trans hletter

/-- A number is read back from its text, to the bit and without a change to the text, if and only if
it is written out. Either zero is written as zero. -/
theorem value_plain_iff (v : Float) :
    (Sanitizer.sanitize (plain v) = .ok (plain v) ∧
        (Expr.parse (plain v)).map Expr.value = .ok (if v == 0.0 then 0.0 else v)) ↔
      Positional v := by
  refine ⟨fun ⟨hsanitize, _⟩ => by_contra fun h => sanitize_plain_ne_ok h hsanitize, fun h => ?_⟩
  have hfinite := h.isFinite
  by_cases h0 : units v = 0
  · rw [NumberText.plain_of_units_eq_zero hfinite h0,
      if_pos ((Binary64.beq_zero_iff hfinite).2 h0)]
    decide +kernel
  · rw [if_neg (mt (Binary64.beq_zero_iff hfinite).1 h0)]
    have hsign : units v = 0 → isNegative v = false := fun h => absurd h h0
    exact ⟨(sanitize_plain h hsign).1, map_value_parse_plain h hsign⟩

/-- A value is zero or comes from rounding, so that it is a whole number of places. -/
theorem quantized_of_evaluate (h : evaluate raw = .ok v) : Quantized v := by
  obtain ⟨-, rfl⟩ | ⟨u, hu, hfinite, rfl⟩ := evaluate_eq_ok_iff.1 h
  · have hzero : roundResult 0.0 = 0.0 := by decide +kernel
    rw [← hzero]
    exact quantized_roundResult (by rfl) (by decide +kernel)
  · exact quantized_roundResult (isFinite_of_unrounded hu) hfinite

end Evaluation

namespace Keypad

open Evaluation (roundResult)

variable {v : Float} {last : Option Float}

/-! ### A keypad that holds a written number -/

theorem display_plain (h : Positional v) (hsign : units v = 0 → isNegative v = false) :
    display ⟨plain v, last, false⟩ = ⟨NumberText.display v, false⟩ := by
  simp only [display, previewText, NumberText.plain_ne_nil, Evaluation.preview,
    Evaluation.unrounded_plain h hsign, Bool.false_eq_true, if_false, Option.getD_some]

theorem commit_plain (h : Positional v) (hsign : units v = 0 → isNegative v = false) :
    commit ⟨plain v, last, false⟩ =
      (.ok (some (roundResult v)), ⟨plain (roundResult v), some (roundResult v), false⟩) := by
  rw [commit, if_neg (NumberText.plain_ne_nil v), Evaluation.evaluate_plain h hsign]

theorem display_power (h : ¬Positional v) (hv : v.isFinite = true) :
    display ⟨plain v, last, false⟩ = ⟨pending, false⟩ := by
  have hsanitize := Evaluation.sanitize_plain_of_not_positional h hv
  simp only [display, previewText, NumberText.plain_ne_nil, Evaluation.preview,
    Evaluation.unrounded, hsanitize, bind, Except.bind, Bool.false_eq_true, if_false,
    Option.getD_none]

theorem commit_power (h : ¬Positional v) (hv : v.isFinite = true) :
    commit ⟨plain v, last, false⟩ = (.error (.invalidCharacter 'e'), ⟨plain v, last, true⟩) := by
  have hsanitize := Evaluation.sanitize_plain_of_not_positional h hv
  rw [commit, if_neg (NumberText.plain_ne_nil v), Evaluation.evaluate_of_sanitize_error hsanitize]

end Keypad

namespace Session

open Evaluation (roundResult)

variable {s : Session} {now : Int64} {action : Action} {v : Float}

/-! ### Committing again -/

/-- An action that finds a value leaves it as the expression, without an error mark. -/
theorem keypad_act_of_value (h : (s.act now action).1 = .ok (some v)) :
    (s.act now action).2.keypad = ⟨plain v, some v, false⟩ := by
  rcases act_cases s now action with
    ⟨k, hact⟩ | ⟨_, _, -, hact⟩ | ⟨text, w, -, -, hact⟩ | ⟨-, hact⟩ <;> rw [hact] at h ⊢
  · cases h
  · cases h
  · cases h
    exact keypad_record ..
  · cases h

/-- Committing a session again goes by its keypad, which holds the value. -/
theorem commit_after_value (h : (s.act now action).1 = .ok (some v)) (later : Int64) :
    ((s.act now action).2.commit later).1 = (Keypad.commit ⟨plain v, some v, false⟩).1 ∧
      ((s.act now action).2.commit later).2.keypad.expression =
        (Keypad.commit ⟨plain v, some v, false⟩).2.expression := by
  obtain ⟨houtcome, hkeypad⟩ := press_keypad (s.act now action).2 later .equals
  rw [keypad_act_of_value h] at houtcome hkeypad
  exact ⟨houtcome, congrArg Keypad.expression hkeypad⟩

/-- What a session goes on with after a value was found. The value is shown, and committing again
gives it and leaves its text as it is, if and only if it is written out and is not changed by being
rounded again. A value that is written out is always shown, and committing again gives it rounded
again; that is the value itself up to 4096 and from 4504 on. A value that is written with a power of
ten is not shown, and committing again fails at the letter of that power. -/
theorem commit_again_iff (h : (s.act now action).1 = .ok (some v)) (later : Int64) :
    let found := (s.act now action).2.keypad
    let again := (s.act now action).2.commit later
    (found.display = ⟨NumberText.display v, false⟩ ∧ again.1 = .ok (some v) ∧
        again.2.keypad.expression = found.expression ↔ Positional v ∧ roundResult v = v) ∧
      (Positional v → found.display = ⟨NumberText.display v, false⟩ ∧
        again.1 = .ok (some (roundResult v)) ∧
        again.2.keypad.expression = plain (roundResult v) ∧
        (v.abs ≤ 4096.0 ∨ 4504.0 ≤ v.abs → roundResult v = v)) ∧
      (¬Positional v → found.display = ⟨Keypad.pending, false⟩ ∧
        again.1 = .error (.invalidCharacter 'e') ∧
        again.2.keypad.expression = found.expression) := by
  intro found again
  have hfound : found = ⟨plain v, some v, false⟩ := keypad_act_of_value h
  obtain ⟨houtcome, hexpression⟩ := commit_after_value h later
  obtain ⟨text, -, hvalue, -⟩ := act_eq_ok_some h
  have hfinite := Evaluation.isFinite_of_evaluate hvalue
  have hquantized := Evaluation.quantized_of_evaluate hvalue
  have hsign := hquantized.isNegative_eq_false hfinite
  rw [hfound]
  by_cases hpositional : Positional v
  · rw [Keypad.commit_plain hpositional hsign] at houtcome hexpression
    have hdisplay : Keypad.display ⟨plain v, some v, false⟩ = _ :=
      Keypad.display_plain hpositional hsign
    refine ⟨⟨fun ⟨_, hagain, _⟩ => ⟨hpositional, ?_⟩, fun ⟨_, hsame⟩ => ?_⟩, fun _ => ?_,
      absurd hpositional⟩
    · exact Option.some.inj (Except.ok.inj (houtcome.symm.trans hagain))
    · rw [hsame] at houtcome hexpression
      exact ⟨hdisplay, houtcome, hexpression⟩
    · exact ⟨hdisplay, houtcome, hexpression, hquantized.roundResult_eq hpositional⟩
  · rw [Keypad.commit_power hpositional hfinite] at houtcome hexpression
    refine ⟨⟨fun ⟨_, hagain, _⟩ => ?_, fun ⟨hv, _⟩ => absurd hv hpositional⟩,
      fun hv => absurd hv hpositional, fun _ => ?_⟩
    · cases houtcome.symm.trans hagain
    · exact ⟨Keypad.display_power hpositional hfinite, houtcome, hexpression⟩

theorem commit_again_iff_of_two_thirds :
    let found := (Session.new (.new (.memory []) History.defaultKey 20) true).act 1
      (.commitText ['−', '2', '÷', '3'])
    let result := ['-', '0', '.', '6', '6', '6', '6', '6', '6', '6', '6', '6', '6', '6', '7']
    found.1 = .ok (some (-0.666666666667)) ∧ found.2.keypad.expression = result ∧
      found.2.keypad.display = ⟨NumberText.display (-0.666666666667), false⟩ ∧
      (found.2.commit 2).1 = .ok (some (-0.666666666667)) ∧
      (found.2.commit 2).2.keypad.expression = result := by
  intro found result
  have hvalue : found.1 = .ok (some (-0.666666666667)) := by decide +kernel
  have hwritten : found.2.keypad.expression = result := by decide +kernel
  have hv : Positional (-0.666666666667) := by decide +kernel
  obtain ⟨⟨-, hagain⟩, hpositional, -⟩ := commit_again_iff hvalue 2
  obtain ⟨hdisplay, -, -, hsame⟩ := hpositional hv
  obtain ⟨-, houtcome, hexpression⟩ := hagain ⟨hv, hsame (by decide +kernel)⟩
  exact ⟨hvalue, hwritten, hdisplay, houtcome, hexpression.trans hwritten⟩

/-- A typed quotient that is written with a power of ten cannot be gone on with. -/
theorem not_forall_commit_again :
    ¬∀ (history : History) (records : Bool) (steps : List (Int64 × Action)) (now later : Int64)
      (v : Float),
      let found := ((Session.new history records).run steps).commit now
      found.1 = .ok (some v) →
        found.2.keypad.display = ⟨NumberText.display v, false⟩ ∧
          (found.2.commit later).1 = .ok (some v) ∧
          (found.2.commit later).2.keypad.expression = found.2.keypad.expression := by
  intro h
  let quotient := ['1', '/', '1', '0', '0', '0', '0', '0', '0', '0']
  let typed : List (Int64 × Action) := quotient.map fun c => (1, .input c)
  obtain ⟨hdisplay, -⟩ :=
    h (.new (.memory []) History.defaultKey 20) true typed 2 3 1e-7 (by decide +kernel)
  exact absurd hdisplay (by decide +kernel)

/-- Between the two bounds a result can be changed by being rounded again. -/
example : Evaluation.evaluate ['4', '0', '9', '6', '.', '1'] = .ok 4096.100000000001 ∧
    Evaluation.evaluate (plain 4096.100000000001) = .ok 4096.100000000002 := by
  decide +kernel

end Session

end KeypadCalc
