import KeypadCalc.Expr.Error

/-! The canonical form of what is typed: commas dropped, display glyphs turned into operators, and
each percent sign after a literal written as a division by 100. Only arithmetic characters and
blanks are admitted. -/

namespace KeypadCalc.Sanitizer

def operatorOf : Char → Char
  | '×' => '*'
  | '÷' => '/'
  | '−' => '-'
  | c => c

/-- The text without group separators and with operators in place of display glyphs. -/
def canonical (raw : Text) : Text := (raw.filter (· ≠ ',')).map operatorOf

/-- The operators that a key can type. -/
def isOperator (c : Char) : Bool :=
  c == '+' || c == '-' || c == '*' || c == '/' || c == '%'

/-- The characters that a canonical text may hold. -/
def isAllowed (c : Char) : Bool :=
  c.isDigit || isOperator c || c == '(' || c == ')' || c == '.' || Text.isBlank c

/-- The literal of the form `digits` or `digits.digits` at the front of a text if a percent sign
follows it directly, and what comes after that sign. -/
def percentLiteral? (t : Text) : Option (Text × Text) :=
  let whole := t.takeWhile Char.isDigit
  if whole.isEmpty then none
  else match t.dropWhile Char.isDigit with
    | '%' :: rest => some (whole, rest)
    | '.' :: rest =>
      let fraction := rest.takeWhile Char.isDigit
      match rest.dropWhile Char.isDigit with
      | '%' :: after => if fraction.isEmpty then none else some (whole ++ '.' :: fraction, after)
      | _ => none
    | _ => none

theorem length_percentLiteral? {t literal rest : Text}
    (h : percentLiteral? t = some (literal, rest)) : rest.length < t.length := by
  have hle : ∀ u : Text, (u.dropWhile Char.isDigit).length ≤ u.length := fun u =>
    (List.dropWhile_sublist Char.isDigit).length_le
  have ht := hle t
  unfold percentLiteral? at h
  simp only at h
  split at h
  · simp at h
  · split at h
    · rename_i after heq
      rw [heq] at ht
      simp only [Option.some.injEq, Prod.mk.injEq] at h
      rw [← h.2]
      exact ht
    · rename_i mid heq
      rw [heq] at ht
      split at h
      · rename_i after heq'
        have hm := hle mid
        rw [heq'] at hm
        split at h
        · simp at h
        · simp only [Option.some.injEq, Prod.mk.injEq] at h
          rw [← h.2]
          simp only [List.length_cons] at ht hm
          omega
      · simp at h
    · simp at h

/-- Writes each literal with a percent sign after it as a division by 100 in parentheses. -/
def expandPercents : Text → Text
  | [] => []
  | c :: rest =>
    match h : percentLiteral? (c :: rest) with
    | some (literal, after) =>
      have := length_percentLiteral? h
      '(' :: literal ++ ['/', '1', '0', '0', ')'] ++ expandPercents after
    | none => c :: expandPercents rest
termination_by t => t.length
decreasing_by all_goals (simp only [List.length_cons] at *; omega)

/-- The canonical arithmetic text for what was typed, or its first character that has no place in
one. -/
def sanitize (raw : Text) : Except CalcError Text :=
  match (canonical raw).find? fun c => !isAllowed c with
  | some bad => .error (.invalidCharacter bad)
  | none => .ok (expandPercents (canonical raw))

end KeypadCalc.Sanitizer
