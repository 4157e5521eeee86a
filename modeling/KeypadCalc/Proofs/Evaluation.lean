import KeypadCalc.Evaluation
import KeypadCalc.Proofs.Parsing

/-! Evaluation as a whole. A character is refused before anything else; after that the value of a
text depends on what its canonical form is worth alone, and it is finite. -/

namespace KeypadCalc.Evaluation

open KeypadCalc.Expr (bind_eq_ok)
open Sanitizer (sanitize)

variable {raw raw' s s' : Text} {u v : Float} {e : Expr} {c : Char}

/-- A value is zero for lack of one, or rounded and still finite. -/
theorem evaluate_eq_ok_iff :
    evaluate raw = .ok v ↔ (unrounded raw = .ok none ∧ v = 0.0) ∨
      ∃ u, unrounded raw = .ok (some u) ∧ (roundResult u).isFinite = true ∧ v = roundResult u := by
  rw [evaluate, bind_eq_ok]
  constructor
  · rintro ⟨u, hu, hvalue⟩
    cases u with
    | none =>
      cases hvalue
      exact .inl ⟨hu, rfl⟩
    | some u =>
      simp only at hvalue
      split at hvalue
      · rename_i hfinite
        cases hvalue
        exact .inr ⟨u, hu, hfinite, rfl⟩
      · cases hvalue
  · rintro (⟨hu, rfl⟩ | ⟨u, hu, hfinite, rfl⟩)
    · exact ⟨none, hu, rfl⟩
    · exact ⟨some u, hu, if_pos hfinite⟩

theorem isFinite_of_evaluate (h : evaluate raw = .ok v) : v.isFinite = true := by
  obtain ⟨-, rfl⟩ | ⟨u, -, hfinite, rfl⟩ := evaluate_eq_ok_iff.1 h
  · decide
  · exact hfinite

theorem isFinite_of_unrounded (h : unrounded raw = .ok (some u)) : u.isFinite = true := by
  obtain ⟨s, -, hvalue⟩ := bind_eq_ok.1 h
  split at hvalue
  · cases hvalue
  · split at hvalue
    · cases hvalue
    · split at hvalue
      · rename_i hfinite
        cases hvalue
        exact hfinite
      · cases hvalue

/-! ### Steps of an evaluation -/

theorem evaluate_of_sanitize_error {error : CalcError} (h : sanitize raw = .error error) :
    evaluate raw = .error error := by
  simp only [evaluate, unrounded, h, bind, Except.bind]

theorem evaluate_of_blank (h : sanitize raw = .ok s) (hs : Text.isBlankText s = true) :
    evaluate raw = .ok 0.0 := by
  simp only [evaluate, unrounded, h, hs, bind, Except.bind, if_true]
  rfl

theorem unrounded_of_parse_error {error : SyntaxError} (h : sanitize raw = .ok s)
    (hs : Text.isBlankText s = false) (hparse : Expr.parse s = .error error) :
    unrounded raw = .error (.malformed error) := by
  simp only [unrounded, h, hs, hparse, bind, Except.bind, Bool.false_eq_true, if_false]
  rfl

theorem unrounded_of_parse (h : sanitize raw = .ok s) (hs : Text.isBlankText s = false)
    (hparse : Expr.parse s = .ok e) :
    unrounded raw = if e.value.isFinite then .ok (some e.value) else .error .nonFinite := by
  simp only [unrounded, h, hs, hparse, bind, Except.bind, Bool.false_eq_true, if_false]
  rfl

/-- The outcome for a value before it is rounded. -/
def outcome (v : Float) : Except CalcError Float :=
  if v.isFinite && (roundResult v).isFinite then .ok (roundResult v) else .error .nonFinite

theorem evaluate_of_parse_error {error : SyntaxError} (h : sanitize raw = .ok s)
    (hs : Text.isBlankText s = false) (hparse : Expr.parse s = .error error) :
    evaluate raw = .error (.malformed error) := by
  rw [evaluate, unrounded_of_parse_error h hs hparse]
  rfl

theorem evaluate_of_parse (h : sanitize raw = .ok s) (hs : Text.isBlankText s = false)
    (hparse : Expr.parse s = .ok e) : evaluate raw = outcome e.value := by
  rw [evaluate, unrounded_of_parse h hs hparse, outcome]
  cases e.value.isFinite with
  | false => rfl
  | true =>
    change (if (roundResult e.value).isFinite then _ else _) = _
    cases (roundResult e.value).isFinite <;> rfl

theorem exists_parse_of_evaluate (h : evaluate raw = .ok v) (hs : sanitize raw = .ok s)
    (hblank : Text.isBlankText s = false) : ∃ e, Expr.parse s = .ok e := by
  cases hparse : Expr.parse s with
  | error error =>
    rw [evaluate_of_parse_error hs hblank hparse] at h
    cases h
  | ok e => exact ⟨e, rfl⟩

theorem outcome_eq_error {error : CalcError} (h : outcome v = .error error) :
    error = .nonFinite := by
  unfold outcome at h
  split at h
  · cases h
  · exact (Except.error.inj h).symm

/-- What the sanitizer makes of a text is blank, or is refused by the reader, or is worth the
outcome for the value of what is read. -/
theorem evaluate_cases (h : sanitize raw = .ok s) :
    (Text.isBlankText s = true ∧ evaluate raw = .ok 0.0) ∨
      (∃ error, Expr.parse s = .error error ∧ evaluate raw = .error (.malformed error)) ∨
      ∃ e, Expr.parse s = .ok e ∧ evaluate raw = outcome e.value := by
  cases hblank : Text.isBlankText s with
  | true => exact .inl ⟨rfl, evaluate_of_blank h hblank⟩
  | false =>
    cases hparse : Expr.parse s with
    | error error => exact .inr (.inl ⟨error, rfl, evaluate_of_parse_error h hblank hparse⟩)
    | ok e => exact .inr (.inr ⟨e, rfl, evaluate_of_parse h hblank hparse⟩)

theorem sanitize_of_evaluate (h : evaluate raw = .error (.invalidCharacter c)) :
    sanitize raw = .error (.invalidCharacter c) := by
  cases hs : sanitize raw with
  | error error =>
    rw [evaluate_of_sanitize_error hs] at h
    cases h
    rfl
  | ok s =>
    obtain ⟨-, heq⟩ | ⟨error, -, heq⟩ | ⟨e, -, heq⟩ := evaluate_cases hs
    · cases heq.symm.trans h
    · cases heq.symm.trans h
    · cases outcome_eq_error (heq.symm.trans h)

/-- What is reported as malformed is what the reader refuses. -/
theorem parse_of_evaluate {error : SyntaxError} (hs : sanitize raw = .ok s)
    (h : evaluate raw = .error (.malformed error)) : Expr.parse s = .error error := by
  obtain ⟨-, heq⟩ | ⟨error', hparse, heq⟩ | ⟨e, -, heq⟩ := evaluate_cases hs
  · cases heq.symm.trans h
  · cases heq.symm.trans h
    exact hparse
  · cases outcome_eq_error (heq.symm.trans h)

/-! ### What a canonical text is worth -/

theorem evaluate_of_value (h : sanitize raw = .ok s) (hs : Text.isBlankText s = false)
    (hvalue : (Expr.parse s).map Expr.value = .ok v) : evaluate raw = outcome v := by
  obtain ⟨e, hparse, rfl⟩ := Expr.map_value_eq_ok_iff.1 hvalue
  exact evaluate_of_parse h hs hparse

theorem unrounded_of_value (h : sanitize raw = .ok s) (hs : Text.isBlankText s = false)
    (hvalue : (Expr.parse s).map Expr.value = .ok v) (hfinite : v.isFinite = true) :
    unrounded raw = .ok (some v) := by
  obtain ⟨e, hparse, rfl⟩ := Expr.map_value_eq_ok_iff.1 hvalue
  rw [unrounded_of_parse h hs hparse, if_pos hfinite]

theorem toOption_evaluate_eq_none (h : sanitize raw = .ok s) (hs : Text.isBlankText s = false)
    (hvalue : ∀ v, (Expr.parse s).map Expr.value ≠ .ok v) : (evaluate raw).toOption = none := by
  cases hparse : Expr.parse s with
  | error error =>
    rw [evaluate_of_parse_error h hs hparse]
    rfl
  | ok e => exact absurd (Expr.map_value_eq_ok_iff.2 ⟨e, hparse, rfl⟩) (hvalue e.value)

/-- Canonical texts that are worth the same are evaluated alike, but for the words of an error. -/
theorem toOption_evaluate_congr (h : sanitize raw = .ok s) (h' : sanitize raw' = .ok s')
    (hs : Text.isBlankText s = false) (hs' : Text.isBlankText s' = false)
    (hworth : ∀ v, (Expr.parse s).map Expr.value = .ok v ↔ (Expr.parse s').map Expr.value = .ok v) :
    (evaluate raw).toOption = (evaluate raw').toOption := by
  by_cases hvalue : ∃ v, (Expr.parse s).map Expr.value = .ok v
  · obtain ⟨v, hv⟩ := hvalue
    rw [evaluate_of_value h hs hv, evaluate_of_value h' hs' ((hworth v).1 hv)]
  · have hnone : ∀ v, (Expr.parse s).map Expr.value ≠ .ok v := fun v hv => hvalue ⟨v, hv⟩
    rw [toOption_evaluate_eq_none h hs hnone,
      toOption_evaluate_eq_none h' hs' fun v => (hworth v).not.1 (hnone v)]

end KeypadCalc.Evaluation
