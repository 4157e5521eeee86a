import KeypadCalc.Json.Quoted

/-! Reading quoted strings back. Each character of the text is written as one piece, and the pieces
make up the text again. -/

namespace KeypadCalc.Json

/-- The character has an escape of its own that is no number. -/
def hasLetter (c : Char) : Bool :=
  c == '"' || c == '\\' || c == '\x08' || c == '\x0c' || c == '\n' || c == '\r' || c == '\t'

/-- The piece that a character is read back as. -/
def pieceOf (c : Char) : Piece :=
  if c.toNat < 0x20 && !hasLetter c then .unit c.toNat else .char c

theorem hexNumber?_digitChar : ∀ n < 0x20,
    hexNumber? (some '0') (some '0') (some (Nat.digitChar (n / 16)))
      (some (Nat.digitChar (n % 16))) = some n := by
  decide

theorem pieces?_letter {e c : Char} (he : unescape? e = some c) (rest : List (Option Char)) :
    pieces? (some '\\' :: some e :: rest) = (pieces? rest).map fun r => (.char c :: r.1, r.2) := by
  have hu : e ≠ 'u' := by
    rintro rfl
    simp [unescape?] at he
  rw [pieces?]
  · rw [he]
    cases pieces? rest <;> rfl
  · exact fun _ _ _ _ _ _ h => hu h

theorem pieces?_plain {c : Char} (hquote : c ≠ '"') (hslash : c ≠ '\\') (hlow : ¬c.toNat < 0x20)
    (rest : List (Option Char)) :
    pieces? (some c :: rest) = (pieces? rest).map fun r => (.char c :: r.1, r.2) := by
  rw [pieces?]
  · rw [if_neg (by simp [hslash, hlow])]
  · exact hquote
  · exact fun _ _ _ _ _ _ h => hslash h
  · exact fun _ _ _ h => hslash h

theorem pieces?_escape (c : Char) (rest : List (Option Char)) :
    pieces? ((escape c).map some ++ rest) =
      (pieces? rest).map fun r => (pieceOf c :: r.1, r.2) := by
  unfold escape
  split
  case h_8 hquote hslash hback hfeed hline hreturn htab =>
    have hletter : hasLetter c = false := by
      simp only [hasLetter, Bool.or_eq_false_iff, beq_eq_false_iff_ne]
      exact ⟨⟨⟨⟨⟨⟨hquote, hslash⟩, hback⟩, hfeed⟩, hline⟩, hreturn⟩, htab⟩
    split
    · rename_i hlow
      have hpiece : pieceOf c = .unit c.toNat := by simp [pieceOf, hlow, hletter]
      simp only [List.map_cons, List.map_nil, List.cons_append, List.nil_append, pieces?,
        hexNumber?_digitChar _ hlow, hpiece]
      cases pieces? rest <;> rfl
    · rename_i hhigh
      have hpiece : pieceOf c = .char c := by simp [pieceOf, hhigh]
      rw [hpiece]
      exact pieces?_plain hquote hslash hhigh rest
  all_goals exact pieces?_letter rfl rest

theorem pieces?_flatMap_escape (t : Text) (rest : List (Option Char)) :
    pieces? ((t.flatMap escape).map some ++ some '"' :: rest) =
      some (t.map pieceOf, rest) := by
  induction t with
  | nil => simp [pieces?]
  | cons c t ih =>
    rw [List.flatMap_cons, List.map_append, List.append_assoc, pieces?_escape, ih]
    rfl

/-- A character that is written as a number is no surrogate. -/
theorem content?_map_pieceOf (t : Text) : content? (t.map pieceOf) = some t := by
  induction t with
  | nil => rfl
  | cons c t ih =>
    rw [List.map_cons, pieceOf]
    split
    · rename_i hlow
      have hnat : c.toNat < 0x20 := by
        simp only [Bool.and_eq_true, decide_eq_true_eq] at hlow
        exact hlow.1
      have hhigh : isHighSurrogate c.toNat = false := by
        simp only [isHighSurrogate, Bool.and_eq_false_iff, decide_eq_false_iff_not]
        omega
      have hlow' : isLowSurrogate c.toNat = false := by
        simp only [isLowSurrogate, Bool.and_eq_false_iff, decide_eq_false_iff_not]
        omega
      rw [content?.eq_def]
      simp [hhigh, hlow', ih, Char.ofNat_toNat]
    · rw [content?, ih]
      rfl

end KeypadCalc.Json
