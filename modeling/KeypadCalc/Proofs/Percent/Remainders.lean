import KeypadCalc.Proofs.Evaluation
import KeypadCalc.Proofs.Parsing.FirstError
import KeypadCalc.Proofs.Sanitizing

/-! What stands before a percent sign that the sanitizer leaves. In a text that is accepted such a
sign is an operator, so that a factor ends before it, in a parenthesis or in a number; and a digit
never stands right before it. Main statement: what the last character before the sign is, blanks
apart. -/

namespace KeypadCalc.Percent

open Evaluation (evaluate)
open KeypadCalc.Expr (isExpression_iff run?_append_eq_some_iff run?_cons_eq_some_iff next?_cases)
open Sanitizer

variable {t front rest : Text} {c : Char} {ts before after : List Token} {token last : Token}
  {raw : Text} {v : Float}

theorem ne_number_of_ofSymbol? {w : Float} (hc : Token.ofSymbol? c = some token) :
    token ≠ .number w := by
  rcases Lexeme.ofSymbol?_cases hc with rfl | rfl | rfl | rfl | rfl | rfl | rfl <;>
    · cases hc
      simp

theorem eq_rightParen_of_ofSymbol? (hc : Token.ofSymbol? c = some .rightParen) : c = ')' := by
  rcases Lexeme.ofSymbol?_cases hc with rfl | rfl | rfl | rfl | rfl | rfl | rfl <;>
    first | rfl | cases hc

/-- The last token of a text ends before blanks. -/
theorem exists_concat_of_hasTokens (h : HasTokens t (before ++ [last])) :
    ∃ init c blanks, t = init ++ c :: blanks ∧ (∀ d ∈ blanks, Text.isBlank d = true) ∧
      Text.isBlank c = false ∧ HasTokens (init ++ [c]) (before ++ [last]) := by
  induction t using List.reverseRecOn with
  | nil =>
    have hnil := h.unique hasTokens_nil
    simp at hnil
  | append_singleton t d ih =>
    cases hd : Text.isBlank d with
    | true =>
      obtain ⟨ts, us, hts, hus, heq⟩ := (hasTokens_append_blank hd).1 h
      rw [hus.unique hasTokens_nil, List.append_nil] at heq
      obtain ⟨init, c, blanks, rfl, hblanks, hc, htokens⟩ := ih (heq ▸ hts)
      refine ⟨init, c, blanks ++ [d], by simp, ?_, hc, htokens⟩
      exact List.forall_mem_append.2 ⟨hblanks, List.forall_mem_singleton.2 hd⟩
    | false => exact ⟨t, d, [], rfl, by simp, hd, h⟩

/-- In an expression a factor ends before a percent sign. -/
theorem exists_last_before_percent (h : Expr.IsExpression (front ++ '%' :: rest)) :
    ∃ before last, HasTokens front (before ++ [last]) ∧
      (last = .rightParen ∨ ∃ w, last = .number w) := by
  have hpercent : Token.ofSymbol? '%' = some .percent := rfl
  obtain ⟨_, htokens, hrun⟩ := isExpression_iff.1 h
  obtain ⟨before, after, hbefore, -, rfl⟩ := (hasTokens_append_symbol hpercent).1 htokens
  obtain ⟨s, hs, hmore⟩ := run?_append_eq_some_iff.1 hrun
  obtain ⟨r, hr, -⟩ := run?_cons_eq_some_iff.1 hmore
  -- an operator comes only after a factor
  obtain ⟨above, rfl⟩ : ∃ above, s = .after above := by
    rcases next?_cases hr with ⟨_, -, -, ⟨hsign | hparen, -⟩ | ⟨⟨w, hw⟩, -⟩⟩ | ⟨above, hs, -⟩ |
      ⟨p, outer, hs, -⟩
    · cases hsign
    · cases hparen
    · cases hw
    · exact ⟨above, hs⟩
    · exact ⟨_, hs⟩
  rcases List.eq_nil_or_concat before with rfl | ⟨before, last, rfl⟩
  · cases hs
  · rw [List.concat_eq_append] at hs hbefore
    refine ⟨before, last, hbefore, ?_⟩
    obtain ⟨s, -, hlast⟩ := run?_append_eq_some_iff.1 hs
    obtain ⟨r, hr, hnil⟩ := run?_cons_eq_some_iff.1 hlast
    cases hnil
    rcases next?_cases hr with ⟨_, -, -, ⟨-, hbefore⟩ | ⟨hnumber, -⟩⟩ | ⟨_, -, -, hbefore⟩ |
      ⟨p, outer, -, hparen, -⟩
    · cases hbefore
    · exact .inr hnumber
    · cases hbefore
    · exact .inl hparen

/-- The characters that a factor may end in. -/
theorem char_of_factor_end (h : HasTokens (t ++ [c]) (before ++ [last]))
    (hlast : last = .rightParen ∨ ∃ w, last = .number w) (hc : Text.isBlank c = false) :
    c = ')' ∨ c.isDigit = true ∨ c = '.' ∧ t.getLast?.any Char.isDigit = true := by
  obtain ⟨ls, hls, -⟩ := id h
  rcases hls.forall_mem c (by simp) with hblank | hnumeral | ⟨token, hsymbol⟩
  · rw [hblank] at hc
    cases hc
  · rcases Bool.or_eq_true_iff.1 hnumeral with hdigit | hpoint
    · exact .inr (.inl hdigit)
    · obtain rfl := beq_iff_eq.1 hpoint
      refine .inr (.inr ⟨rfl, ?_⟩)
      by_contra hdigit
      refine not_hasTokens_point (fun d hd hd' => hdigit ?_) h
      exact (Option.any_eq_true _ _).2 ⟨d, hd, hd'⟩
  · obtain ⟨before', -, heq⟩ := (hasTokens_concat_symbol hsymbol).1 h
    obtain ⟨-, hlast'⟩ := List.append_inj' heq rfl
    obtain rfl := List.singleton_inj.1 hlast'
    rcases hlast with rfl | ⟨w, rfl⟩
    · exact .inl (eq_rightParen_of_ofSymbol? hsymbol)
    · exact absurd rfl (ne_number_of_ofSymbol? hsymbol)

/-- A percent sign that the sanitizer leaves in a text that is accepted is an operator. The last
character before it that is no blank is a closing parenthesis, or it is the end of a number: a digit
with blanks after it, or a point with a digit before it. -/
theorem char_before_remainder {raw front rest : Text} {v : Float} (h : evaluate raw = .ok v)
    (hs : sanitize raw = .ok (front ++ '%' :: rest)) :
    ∃ init c blanks, front = init ++ c :: blanks ∧ (∀ d ∈ blanks, Text.isBlank d = true) ∧
      (c = ')' ∨ c.isDigit = true ∧ blanks ≠ [] ∨
        c = '.' ∧ init.getLast?.any Char.isDigit = true) := by
  have hblank : Text.isBlankText (front ++ '%' :: rest) = false := by
    simp [Text.isBlankText, show Text.isBlank '%' = false from rfl]
  have hnone : NoPercentages (front ++ '%' :: rest) := by
    rw [← (sanitize_eq_ok_iff.1 hs).2]
    exact noPercentages_expandPercents _
  obtain ⟨before, last, hbefore, hlast⟩ :=
    exists_last_before_percent (Evaluation.exists_parse_of_evaluate h hs hblank)
  obtain ⟨init, c, blanks, rfl, hblanks, hc, htokens⟩ := exists_concat_of_hasTokens hbefore
  refine ⟨init, c, blanks, rfl, hblanks, ?_⟩
  rcases char_of_factor_end htokens hlast hc with hparen | hdigit | hpoint
  · exact .inl hparen
  · refine .inr (.inl ⟨hdigit, ?_⟩)
    rintro rfl
    exact hnone init c rest (by simp) hdigit
  · exact .inr (.inr hpoint)

/-- The first of the two percent signs makes a percentage, which ends in a parenthesis. -/
theorem char_before_remainder_of_percentage :
    let raw := ['5', '0', '%', '%', '3']
    let front := ['(', '5', '0', '/', '1', '0', '0', ')']
    evaluate raw = .ok 0.5 ∧ sanitize raw = .ok (front ++ ['%', '3']) ∧
      ∃ init c blanks, front = init ++ c :: blanks ∧ (∀ d ∈ blanks, Text.isBlank d = true) ∧
        (c = ')' ∨ c.isDigit = true ∧ blanks ≠ [] ∨
          c = '.' ∧ init.getLast?.any Char.isDigit = true) := by
  intro raw front
  have h : evaluate raw = .ok 0.5 := by decide +kernel
  have hs : sanitize raw = .ok (front ++ ['%', '3']) := by decide +kernel
  exact ⟨h, hs, char_before_remainder h hs⟩

/-- A percent sign after a number that ends in its point is taken as a remainder. -/
theorem not_forall_rightParen_before_remainder :
    ¬∀ (raw front rest : Text) (v : Float), evaluate raw = .ok v →
      sanitize raw = .ok (front ++ '%' :: rest) →
      ∃ init blanks, front = init ++ ')' :: blanks ∧ ∀ d ∈ blanks, Text.isBlank d = true := by
  intro h
  obtain ⟨init, blanks, hfront, -⟩ :=
    h ['5', '.', '%', '3'] ['5', '.'] ['3'] 2.0 (by decide +kernel) (by decide +kernel)
  have hmem : ')' ∈ ['5', '.'] := hfront ▸ by simp
  exact absurd hmem (by decide)

end KeypadCalc.Percent
