import KeypadCalc.Expr.Error

/-! Dividing a text into lexemes, from left to right: blanks are skipped, a numeral is taken as long
as it can be, and every other token is one character. -/

namespace KeypadCalc.Lexeme

open Decimal

theorem length_split_lt {c : Char} {t : Text} (h : (c.isDigit || c == '.') = true) :
    (Numeral.split (c :: t)).2.length < (c :: t).length := by
  have hle : ∀ u : Text, (u.dropWhile Char.isDigit).length ≤ u.length := fun u =>
    (List.dropWhile_sublist Char.isDigit).length_le
  unfold Numeral.split
  by_cases hd : c.isDigit
  · simp only [List.dropWhile_cons, hd, if_true]
    split
    · rename_i rest heq
      have h1 := hle rest
      have h2 := hle t
      rw [heq] at h2
      simp only [List.length_cons] at h2 ⊢
      omega
    · have h2 := hle t
      simp only [List.length_cons]
      omega
  · have hc : c = '.' := by simpa [hd] using h
    subst hc
    have h1 := hle t
    simp only [List.dropWhile_cons, show Char.isDigit '.' = false from rfl]
    simp only [List.length_cons]
    simp only [Bool.false_eq_true, if_false]
    omega

/-- The lexemes of a text whose first character has the given position. -/
def ofText (position : Nat) : Text → Except SyntaxError (List Lexeme)
  | [] => .ok []
  | c :: rest =>
    if Text.isBlank c then ofText (position + 1) rest
    else match Token.ofSymbol? c with
      | some token => (ofText (position + 1) rest).map (⟨position, token⟩ :: ·)
      | none =>
        if h : (c.isDigit || c == '.') = true then
          have := length_split_lt (t := rest) h
          let literal := (Numeral.split (c :: rest)).1
          if literal = ['.'] then .error ⟨position, .lonePoint⟩
          else match Numeral.value? literal with
            | none => .error ⟨position, .invalidNumber literal⟩
            | some value =>
              (ofText (position + literal.length) (Numeral.split (c :: rest)).2).map
                (⟨position, .number value⟩ :: ·)
        else .error ⟨position, .unexpectedCharacter c⟩
termination_by t => t.length
decreasing_by all_goals (simp only [List.length_cons] at *; omega)

end KeypadCalc.Lexeme
