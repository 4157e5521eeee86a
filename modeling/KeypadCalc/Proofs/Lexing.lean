import KeypadCalc.Expr.Lexer
import KeypadCalc.Proofs.Numeral

/-! Dividing a text into lexemes as a relation: between blanks, the text is symbols and numerals,
each numeral as long as it can be. `Lexeme.ofText` finds the lexemes whenever there are some, and
there is only one way to divide a text. -/

namespace KeypadCalc

open Decimal Decimal.Numeral

/-- A text whose first character has the given position is divided into lexemes. -/
inductive Lexes : Nat → Text → List Lexeme → Prop
  | nil {position : Nat} : Lexes position [] []
  | blank {position : Nat} {c : Char} {t : Text} {ls : List Lexeme} :
      Text.isBlank c → Lexes (position + 1) t ls → Lexes position (c :: t) ls
  | symbol {position : Nat} {c : Char} {token : Token} {t : Text} {ls : List Lexeme} :
      Token.ofSymbol? c = some token → Lexes (position + 1) t ls →
        Lexes position (c :: t) (⟨position, token⟩ :: ls)
  | number {position : Nat} {u rest : Text} {v : Float} {ls : List Lexeme} :
      IsNumeral u → IsLongest u rest → value? u = some v →
        Lexes (position + u.length) rest ls →
        Lexes position (u ++ rest) (⟨position, .number v⟩ :: ls)

namespace Lexeme

/-- A symbol is one of the seven characters that stand for a token. -/
theorem ofSymbol?_cases {c : Char} {token : Token} (h : Token.ofSymbol? c = some token) :
    c = '+' ∨ c = '-' ∨ c = '*' ∨ c = '/' ∨ c = '%' ∨ c = '(' ∨ c = ')' := by
  unfold Token.ofSymbol? at h
  split at h <;> simp_all

theorem not_isBlank_of_ofSymbol? {c : Char} {token : Token} (h : Token.ofSymbol? c = some token) :
    Text.isBlank c = false := by
  rcases ofSymbol?_cases h with rfl | rfl | rfl | rfl | rfl | rfl | rfl <;> decide

theorem ofSymbol?_of_isDigit {c : Char} (h : (c.isDigit || c == '.') = true) :
    Token.ofSymbol? c = none := by
  cases hs : Token.ofSymbol? c with
  | none => rfl
  | some token =>
    rcases ofSymbol?_cases hs with rfl | rfl | rfl | rfl | rfl | rfl | rfl <;>
      exact absurd h (by decide)

theorem isBlank_of_isDigit {c : Char} (h : (c.isDigit || c == '.') = true) :
    Text.isBlank c = false := by
  have hnat : c.toNat = 46 ∨ 48 ≤ c.toNat ∧ c.toNat ≤ 57 := by
    simp only [Bool.or_eq_true, beq_iff_eq] at h
    rcases h with h | rfl
    · simp only [Char.isDigit, Bool.and_eq_true, decide_eq_true_eq] at h
      exact .inr ⟨h.1, h.2⟩
    · exact .inl rfl
  simp only [Text.isBlank, Text.blankRanges, List.any_cons, List.any_nil, Bool.or_false,
    Bool.or_eq_false_iff, Bool.and_eq_false_iff, decide_eq_false_iff_not]
  omega

/-- A numeral begins with a digit or a point. -/
theorem isNumeral_head {u : Text} (h : IsNumeral u) :
    ∃ c t, u = c :: t ∧ (c.isDigit || c == '.') = true := by
  cases h with
  | whole hne hd =>
    cases u with
    | nil => exact absurd rfl hne
    | cons c t => exact ⟨c, t, rfl, by simp [hd c (by simp)]⟩
  | @point ds fs hd hf hne =>
    cases ds with
    | nil => exact ⟨'.', fs, rfl, rfl⟩
    | cons c t => exact ⟨c, _, rfl, by simp [hd c (by simp)]⟩

/-! ### The first step -/

variable {position : Nat} {c : Char} {t : Text}

theorem ofText_cons_blank (hc : Text.isBlank c = true) :
    ofText position (c :: t) = ofText (position + 1) t := by
  rw [ofText, if_pos hc]

theorem ofText_cons_symbol {token : Token} (hc : Token.ofSymbol? c = some token) :
    ofText position (c :: t) = (ofText (position + 1) t).map (⟨position, token⟩ :: ·) := by
  rw [ofText]
  simp only [not_isBlank_of_ofSymbol? hc, Bool.false_eq_true, if_false, hc]

theorem ofText_cons_numeric (hc : (c.isDigit || c == '.') = true) :
    ofText position (c :: t) =
      if (split (c :: t)).1 = ['.'] then .error ⟨position, .lonePoint⟩
      else match value? (split (c :: t)).1 with
        | none => .error ⟨position, .invalidNumber (split (c :: t)).1⟩
        | some v => (ofText (position + (split (c :: t)).1.length) (split (c :: t)).2).map
          (⟨position, .number v⟩ :: ·) := by
  rw [ofText]
  simp only [isBlank_of_isDigit hc, ofSymbol?_of_isDigit hc, hc]
  exact (if_neg Bool.false_ne_true).trans (dif_pos trivial)

/-- A point with no digit after it is no token. -/
theorem ofText_cons_point (ht : ∀ d ∈ t.head?, d.isDigit = false) :
    ofText position ('.' :: t) = .error ⟨position, .lonePoint⟩ := by
  have htake : t.takeWhile Char.isDigit = [] := by
    cases t with
    | nil => rfl
    | cons d t => exact List.takeWhile_cons_of_neg (by simp [ht d rfl])
  have hsplit : (split ('.' :: t)).1 = ['.'] := by
    simp only [split, List.takeWhile_cons_of_neg not_isDigit_point,
      List.dropWhile_cons_of_neg not_isDigit_point, htake, List.nil_append]
  rw [ofText_cons_numeric rfl, if_pos hsplit]

theorem ofText_cons_foreign (hblank : Text.isBlank c = false)
    (hsymbol : Token.ofSymbol? c = none) (hc : (c.isDigit || c == '.') = false) :
    ofText position (c :: t) = .error ⟨position, .unexpectedCharacter c⟩ := by
  rw [ofText]
  simp only [hblank, hsymbol, hc, Bool.false_eq_true, if_false, dif_neg, not_false_eq_true]

/-- The lexeme of a numeral comes before those of the text after it. -/
theorem ofText_number {u rest : Text} {v : Float} (hnum : IsNumeral u)
    (hmax : IsLongest u rest) (hv : value? u = some v) :
    ofText position (u ++ rest) =
      (ofText (position + u.length) rest).map (⟨position, .number v⟩ :: ·) := by
  have hsplit := split_of_isLongest hnum hmax
  have hpoint : u ≠ ['.'] := by
    rintro rfl
    exact absurd hv (by simp [value?, decimal?, not_isDigit_point])
  obtain ⟨c, t, rfl, hc⟩ := isNumeral_head hnum
  rw [List.cons_append] at hsplit ⊢
  rw [ofText_cons_numeric hc, hsplit, if_neg hpoint, hv]

/-! ### Whole texts -/

/-- The lexemes that are found divide the text. -/
theorem lexes_of_ofText {ls : List Lexeme} (h : ofText position t = .ok ls) :
    Lexes position t ls := by
  fun_induction ofText position t generalizing ls with
  | case1 => cases h; exact .nil
  | case2 position c rest hb ih => exact .blank hb (ih h)
  | case3 position c rest hb token hs ih =>
    cases hrest : ofText (position + 1) rest with
    | error e => simp [hrest, Except.map] at h
    | ok ls' =>
      simp only [hrest, Except.map, Except.ok.injEq] at h
      exact h ▸ .symbol hs (ih hrest)
  | case4 => simp at h
  | case5 => simp at h
  | case6 position c rest hb hs hc _ literal hpoint v hv =>
    rename_i ih
    cases hrest : ofText (position + literal.length) (split (c :: rest)).2 with
    | error e => simp [hrest, Except.map] at h
    | ok ls' =>
      simp only [hrest, Except.map, Except.ok.injEq] at h
      subst h
      have hne : literal ≠ [] := by
        intro hnil
        exact absurd hv (by simp [hnil, value?, decimal?])
      have hlex := Lexes.number (isNumeral_split hne hpoint) isLongest_split hv (ih hrest)
      rwa [split_append] at hlex
  | case7 => simp at h

/-- The lexemes that divide a text are found. -/
theorem ofText_of_lexes {ls : List Lexeme} (h : Lexes position t ls) :
    ofText position t = .ok ls := by
  induction h with
  | nil => rw [ofText]
  | blank hb _ ih => rw [ofText_cons_blank hb, ih]
  | symbol hs _ ih => rw [ofText_cons_symbol hs, ih]; rfl
  | number hnum hmax hv _ ih => rw [ofText_number hnum hmax hv, ih]; rfl

theorem ofText_eq_ok_iff {ls : List Lexeme} :
    ofText position t = .ok ls ↔ Lexes position t ls :=
  ⟨lexes_of_ofText, ofText_of_lexes⟩

end Lexeme

/-- A text is divided into lexemes in one way only. -/
theorem Lexes.unique {position : Nat} {t : Text} {ls ls' : List Lexeme}
    (h : Lexes position t ls) (h' : Lexes position t ls') : ls = ls' :=
  Except.ok.inj ((Lexeme.ofText_of_lexes h).symm.trans (Lexeme.ofText_of_lexes h'))

end KeypadCalc
