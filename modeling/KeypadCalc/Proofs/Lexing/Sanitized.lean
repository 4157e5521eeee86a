import KeypadCalc.Proofs.Evaluation
import KeypadCalc.Proofs.Lexing.Segments
import KeypadCalc.Proofs.Parsing.FirstError
import KeypadCalc.Proofs.Sanitizing.Results

/-! Dividing what comes out of the sanitizer. Each character that it lets through or writes is a
blank, a symbol or a part of numerals, so that nothing but a point without digits keeps its results
from being divided into lexemes. -/

namespace KeypadCalc

open Sanitizer (sanitize isAllowed)
open Evaluation (evaluate)

/-- The flaw is found while the text is divided into lexemes. -/
def Flaw.isLexical : Flaw → Bool
  | unexpectedCharacter _ | lonePoint | invalidNumber _ => true
  | _ => false

variable {raw s t : Text} {c : Char} {error : SyntaxError}

/-! ### The flaws of lexemes -/

theorem Expr.Stage.isLexical_of_flaw? {limit : Nat} {stage : Expr.Stage} {next : Option Token}
    {flaw : Flaw} (h : stage.flaw? limit next = some flaw) : flaw.isLexical = false := by
  cases next with
  | none =>
    rcases stage with above | (_ | ⟨_, above⟩)
    · obtain rfl := Option.some.inj h
      split <;> rfl
    · cases h
    · obtain rfl := Option.some.inj h
      rfl
  | some t =>
    unfold Stage.flaw? at h
    simp only at h
    split at h
    · cases h
    · obtain rfl := Option.some.inj h
      rcases stage with above | (_ | ⟨_, above⟩)
      · dsimp only
        split <;> rfl
      · rfl
      · rfl

/-- Where lexemes fail to go on, the flaw is not in one of them. -/
theorem Expr.FailsAt.isLexical_eq_false {limit size : Nat} {stage : Expr.Stage} {ls : List Lexeme}
    (h : FailsAt limit size stage ls error) : error.flaw.isLexical = false := by
  obtain ⟨-, rest, stage, -, -, hflaw, -⟩ := h
  exact Stage.isLexical_of_flaw? hflaw

/-- A lexical flaw is reported exactly if the text is not divided into lexemes. -/
theorem Expr.ofText_of_parse (h : parse t = .error error) (hflaw : error.flaw.isLexical = true) :
    Lexeme.ofText 0 t = .error error := by
  cases hls : Lexeme.ofText 0 t with
  | error error' =>
    rw [parse, hls] at h
    exact congrArg _ (Except.error.inj h)
  | ok ls =>
    have hfails := (parse_eq_error_iff (Lexeme.lexes_of_ofText hls)).1 h
    rw [hfails.isLexical_eq_false] at hflaw
    cases hflaw

/-! ### Texts of allowed characters -/

/-- An allowed character may stand in a lexeme or between lexemes. -/
theorem Sanitizer.not_foreign_of_isAllowed (h : isAllowed c = true) :
    ¬(Text.isBlank c = false ∧ Token.ofSymbol? c = none ∧ (c.isDigit || c == '.') = false) := by
  rintro ⟨hblank, hsymbol, hnumeric⟩
  rw [Bool.or_eq_false_iff] at hnumeric
  rcases Sanitizer.isAllowed_iff.1 h with hdigit | hmem | hblank'
  · cases hdigit.symm.trans hnumeric.1
  · have hpoint : c ≠ '.' := by simpa using hnumeric.2
    simp only [List.mem_cons, List.not_mem_nil, or_false, hpoint] at hmem
    rcases hmem with rfl | rfl | rfl | rfl | rfl | rfl | rfl <;> exact absurd hsymbol (by decide)
  · cases hblank'.symm.trans hblank

/-- A text of allowed characters that is not divided has a point with no digit after it. -/
theorem Lexeme.lonePoint_of_isAllowed (hs : ∀ c ∈ s, isAllowed c = true)
    (h : Lexeme.ofText 0 s = .error error) :
    error.flaw = .lonePoint ∧ s[error.position]? = some '.' ∧
      ∀ d ∈ s[error.position + 1]?, d.isDigit = false := by
  obtain ⟨segments, rest, rfl, -, hposition, hoffends⟩ := Lexeme.ofText_eq_error_iff_meets.1 h
  rw [hposition]
  generalize error.flaw = flaw at hoffends
  cases hoffends with
  | @foreign c t hblank hsymbol hnumeric =>
    have hallowed := hs c (List.mem_append_right _ List.mem_cons_self)
    exact absurd ⟨hblank, hsymbol, hnumeric⟩ (Sanitizer.not_foreign_of_isAllowed hallowed)
  | @lonePoint t ht =>
    refine ⟨rfl, by simp, fun d hd => ht d ?_⟩
    simpa [List.getElem?_append_right, List.head?_eq_getElem?] using hd

/-! ### What is evaluated -/

/-- No character that the sanitizer lets through or writes is unexpected, and no number in its
results is without a value, neither where they are evaluated nor where they are read. All that keeps
them from being divided into lexemes is a point with no digit after it. -/
theorem Evaluation.flaw_of_sanitized (hs : sanitize raw = .ok s) :
    (∀ error, (Expr.parse s).map Expr.value = .error error ∨
        evaluate raw = .error (.malformed error) →
      (∀ c, error.flaw ≠ .unexpectedCharacter c) ∧ (∀ u, error.flaw ≠ .invalidNumber u) ∧
        (error.flaw.isLexical = true → Lexeme.ofText 0 s = .error error)) ∧
    ∀ error, Lexeme.ofText 0 s = .error error →
      error.flaw = .lonePoint ∧ s[error.position]? = some '.' ∧
        ∀ d ∈ s[error.position + 1]?, d.isDigit = false := by
  have hpoint : ∀ error, Lexeme.ofText 0 s = .error error → _ := fun error =>
    Lexeme.lonePoint_of_isAllowed (Sanitizer.result_spec hs).1
  refine ⟨fun error h => ?_, hpoint⟩
  have hparse : Expr.parse s = .error error := by
    rcases h with h | h
    · cases hparse : Expr.parse s with
      | error error' =>
        rw [hparse] at h
        cases h
        rfl
      | ok e =>
        rw [hparse] at h
        cases h
    · exact parse_of_evaluate hs h
  have hlexical : error.flaw.isLexical = true → error.flaw = .lonePoint := fun hflaw =>
    (hpoint error (Expr.ofText_of_parse hparse hflaw)).1
  refine ⟨fun c hc => ?_, fun u hu => ?_, Expr.ofText_of_parse hparse⟩
  · rw [hc] at hlexical
    cases hlexical rfl
  · rw [hu] at hlexical
    cases hlexical rfl

/-- The percentage is written out and read; the point after it is what is left to refuse. -/
theorem Evaluation.flaw_of_sanitized_percentage :
    let raw := "5%×.".toList
    let s := "(5/100)*.".toList
    sanitize raw = .ok s ∧ evaluate raw = .error (.malformed ⟨8, .lonePoint⟩) ∧
      Lexeme.ofText 0 s = .error ⟨8, .lonePoint⟩ ∧ s[8]? = some '.' := by
  intro raw s
  have hs : sanitize raw = .ok s := by decide +kernel
  have herror : evaluate raw = .error (.malformed ⟨8, .lonePoint⟩) := by decide +kernel
  obtain ⟨hflaw, hpoint⟩ := flaw_of_sanitized hs
  obtain ⟨-, -, hlexical⟩ := hflaw _ (.inr herror)
  exact ⟨hs, herror, hlexical rfl, (hpoint _ (hlexical rfl)).2.1⟩

end KeypadCalc
