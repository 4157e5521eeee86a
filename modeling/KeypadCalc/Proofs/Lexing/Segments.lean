import KeypadCalc.Proofs.Lexing

/-! What a text is divided into: the slices of its tokens and the blanks between them, one after the
other. A division goes on from the left until the text ends or nothing can start; there is one way
to divide a text so far. Main statement: a text is accepted exactly if the division reaches its end,
and otherwise the error stands where it cannot go on. -/

namespace KeypadCalc

open Decimal.Numeral

/-- A part of a text: a blank, which is skipped, or the slice that a token is read from. -/
inductive Segment
  | blank (c : Char)
  | token (slice : Text) (token : Token)

namespace Segment

def text : Segment → Text
  | blank c => [c]
  | token slice _ => slice

/-- The text that segments make up. -/
def source (segments : List Segment) : Text := segments.flatMap text

/-- The lexemes of segments that begin at a position: each stands where its slice begins. -/
def lexemes (position : Nat) : List Segment → List Lexeme
  | [] => []
  | blank _ :: segments => lexemes (position + 1) segments
  | token slice t :: segments => ⟨position, t⟩ :: lexemes (position + slice.length) segments

/-- A segment as it may stand before the text `rest`. A number is what its slice is read as, and the
next character does not make the slice a longer numeral. -/
inductive Fits (rest : Text) : Segment → Prop
  | blank {c : Char} : Text.isBlank c = true → Fits rest (blank c)
  | symbol {c : Char} {t : Token} : Token.ofSymbol? c = some t → Fits rest (token [c] t)
  | number {slice : Text} {v : Float} : IsNumeral slice → value? slice = some v →
      (∀ c ∈ rest.head?, ¬IsNumeral (slice ++ [c])) → Fits rest (token slice (.number v))

/-- Each of the segments may stand before those after it, which stand before the text `rest`. -/
inductive Divide (rest : Text) : List Segment → Prop
  | nil : Divide rest []
  | cons {s : Segment} {segments : List Segment} :
      s.Fits (source segments ++ rest) → Divide rest segments → Divide rest (s :: segments)

end Segment

open Segment (source lexemes Fits Divide)

/-- What is wrong with a text in which a token should start: its first character is foreign, or it
is a point with no digit after it. -/
inductive Offends : Text → Flaw → Prop
  | foreign {c : Char} {t : Text} : Text.isBlank c = false → Token.ofSymbol? c = none →
      (c.isDigit || c == '.') = false → Offends (c :: t) (.unexpectedCharacter c)
  | lonePoint {t : Text} : (∀ d ∈ t.head?, d.isDigit = false) → Offends ('.' :: t) .lonePoint

/-- The division of a text comes to a place where a token should start and does not. -/
def Meets (t : Text) (error : SyntaxError) : Prop :=
  ∃ segments rest, source segments ++ rest = t ∧ Divide rest segments ∧
    error.position = (source segments).length ∧ Offends rest error.flaw

variable {position : Nat} {c : Char} {t u rest : Text} {flaw : Flaw} {error : SyntaxError}
  {s : Segment} {segments : List Segment}

/-! ### Longest numerals -/

/-- Something is split off a text that begins with a digit or a point. -/
theorem split_ne_nil (hc : (c.isDigit || c == '.') = true) : (split (c :: t)).1 ≠ [] := by
  intro hnil
  have hlt := Lexeme.length_split_lt (t := t) hc
  have happend := split_append (c :: t)
  rw [hnil, List.nil_append] at happend
  rw [happend] at hlt
  exact absurd hlt (Nat.lt_irrefl _)

/-- A point alone is split off if no digit comes after it. -/
theorem exists_cons_of_split_eq_point (h : (split t).1 = ['.']) :
    ∃ rest, t = '.' :: rest ∧ ∀ d ∈ rest.head?, d.isDigit = false := by
  have happend := split_append t
  have hlongest := isLongest_split (t := t)
  rw [h] at happend hlongest
  refine ⟨(split t).2, happend.symm, fun d hd => ?_⟩
  obtain ⟨after, hafter⟩ := List.head?_eq_some_iff.1 hd
  by_contra hdigit
  have hd' : ∀ c ∈ [d], c.isDigit = true := List.forall_mem_singleton.2 (by simpa using hdigit)
  have hnum : IsNumeral ['.', d] := @IsNumeral.point [] [d] (by simp) hd' (.inr (by simp))
  exact absurd (hlongest [d] after hafter hnum) (by simp)

/-- What a numeral begins with is a numeral as well if it is longer than one. -/
theorem isNumeral_concat_of_append (hu : IsNumeral u) (h : IsNumeral (u ++ c :: rest)) :
    IsNumeral (u ++ [c]) := by
  generalize hw : u ++ c :: rest = w at h
  cases h with
  | whole _ hd =>
    refine .whole (by simp) fun d hmem => hd d ?_
    rw [← hw, ← List.singleton_append, ← List.append_assoc]
    exact List.mem_append_left rest hmem
  | @point ds fs hd hf hne =>
    rw [← List.singleton_append, ← List.append_assoc] at hw
    rcases List.append_eq_append_iff.1 hw with ⟨mid, rfl, -⟩ | ⟨mid, hfront, hback⟩
    · exact .whole (by simp) fun d hmem => hd d (List.mem_append_left mid hmem)
    · cases mid with
      | nil =>
        rw [List.append_nil] at hfront
        rw [hfront]
        exact .whole (by rw [← hfront]; simp) hd
      | cons e mid =>
        obtain ⟨rfl, rfl⟩ := List.cons_eq_cons.1 hback
        rw [hfront]
        refine .point hd (fun d hmem => hf d (List.mem_append_left rest hmem)) ?_
        -- a point alone is not longer than a numeral
        by_contra hnone
        simp only [not_or, not_not] at hnone
        obtain ⟨rfl, rfl⟩ := hnone
        obtain ⟨a, v, rfl, -⟩ := Lexeme.isNumeral_head hu
        have hlength := congrArg List.length hfront
        simp at hlength

/-- A numeral is the longest at the front of a text if the next character does not go on with it. -/
theorem isLongest_iff (hu : IsNumeral u) :
    IsLongest u rest ↔ ∀ c ∈ rest.head?, ¬IsNumeral (u ++ [c]) := by
  constructor
  · intro h c hc hnum
    obtain ⟨after, rfl⟩ := List.head?_eq_some_iff.1 hc
    exact absurd (h [c] after rfl hnum) (by simp)
  · intro h more after hmore hnum
    cases more with
    | nil => rfl
    | cons c more =>
      subst hmore
      exact absurd (isNumeral_concat_of_append hu hnum) (h c rfl)

/-! ### Steps of a division -/

theorem Lexeme.ofText_of_offends (h : Offends t flaw) :
    Lexeme.ofText position t = .error ⟨position, flaw⟩ := by
  cases h with
  | foreign hblank hsymbol hnumeric => exact Lexeme.ofText_cons_foreign hblank hsymbol hnumeric
  | lonePoint ht => exact Lexeme.ofText_cons_point ht

namespace Segment

@[simp] theorem source_nil : source [] = [] := rfl

@[simp] theorem source_cons : source (s :: segments) = s.text ++ source segments := rfl

/-- The first segment of a text gives its lexeme, if it has one, before those of what follows. -/
theorem Fits.ofText_append (h : s.Fits rest) :
    Lexeme.ofText position (s.text ++ rest) =
      (Lexeme.ofText (position + s.text.length) rest).map (lexemes position [s] ++ ·) := by
  cases h with
  | blank hc =>
    rw [text, List.singleton_append, Lexeme.ofText_cons_blank hc]
    cases Lexeme.ofText (position + 1) rest <;> rfl
  | symbol hc => exact Lexeme.ofText_cons_symbol hc
  | number hnum hv hlast => exact Lexeme.ofText_number hnum ((isLongest_iff hnum).2 hlast) hv

theorem lexemes_cons (position : Nat) (s : Segment) (segments : List Segment) :
    lexemes position (s :: segments) =
      lexemes position [s] ++ lexemes (position + s.text.length) segments := by
  cases s <;> rfl

/-- After segments that divide the front of a text the lexer is where they end. -/
theorem Divide.ofText_append (h : Divide rest segments) (position : Nat) :
    Lexeme.ofText position (source segments ++ rest) =
      (Lexeme.ofText (position + (source segments).length) rest).map
        (lexemes position segments ++ ·) := by
  induction h generalizing position with
  | nil =>
    rw [source_nil, List.nil_append]
    cases Lexeme.ofText position rest <;> rfl
  | @cons s segments hs _ ih =>
    rw [source_cons, List.append_assoc, hs.ofText_append, ih, List.length_append,
      lexemes_cons position s segments, ← Nat.add_assoc]
    cases Lexeme.ofText (position + s.text.length + (source segments).length) rest with
    | error error => rfl
    | ok ls => simp only [Except.map, List.append_assoc]

theorem Fits.text_ne_nil (h : s.Fits rest) : s.text ≠ [] := by
  cases h with
  | blank | symbol => exact List.cons_ne_nil _ _
  | number hnum =>
    obtain ⟨c, t, rfl, -⟩ := Lexeme.isNumeral_head hnum
    exact List.cons_ne_nil c t

theorem le_position_of_mem_lexemes {l : Lexeme} (h : l ∈ lexemes position segments) :
    position ≤ l.position := by
  induction segments generalizing position with
  | nil => exact absurd h List.not_mem_nil
  | cons s segments ih =>
    cases s with
    | blank c => exact (Nat.le_succ position).trans (ih h)
    | token slice t =>
      rcases List.mem_cons.1 h with rfl | h
      · exact Nat.le_refl _
      · exact (Nat.le_add_right ..).trans (ih h)

/-- No slice is empty, so that each token starts after the one before it. -/
theorem Divide.pairwise_lexemes (h : Divide rest segments) (position : Nat) :
    (lexemes position segments).Pairwise fun l m => l.position < m.position := by
  induction h generalizing position with
  | nil => exact .nil
  | @cons s segments hs _ ih =>
    have hpos := List.length_pos_iff.2 hs.text_ne_nil
    cases s with
    | blank c => exact ih (position + 1)
    | token slice t =>
      refine List.pairwise_cons.2 ⟨fun l hl => ?_, ih _⟩
      exact (Nat.lt_add_of_pos_right hpos).trans_le (le_position_of_mem_lexemes hl)

/-- A text can be divided to its end or to where no token starts. -/
def IsExhaustible (t : Text) : Prop :=
  ∃ segments rest, source segments ++ rest = t ∧ Divide rest segments ∧
    (rest = [] ∨ ∃ flaw, Offends rest flaw)

theorem isExhaustible_of_offends (h : Offends t flaw) : IsExhaustible t :=
  ⟨[], t, rfl, .nil, .inr ⟨flaw, h⟩⟩

theorem Fits.isExhaustible_append (hs : s.Fits t) (h : IsExhaustible t) :
    IsExhaustible (s.text ++ t) := by
  obtain ⟨segments, rest, rfl, hdivide, hrest⟩ := h
  exact ⟨s :: segments, rest, List.append_assoc .., .cons hs hdivide, hrest⟩

/-- The lexer goes through a text as it is divided; no numeral is without a value. -/
theorem isExhaustible (t : Text) : IsExhaustible t := by
  fun_induction Lexeme.ofText 0 t with
  | case1 => exact ⟨[], [], rfl, .nil, .inl rfl⟩
  | case2 _ c t hc ih => exact Fits.isExhaustible_append (s := .blank c) (.blank hc) ih
  | case3 _ c t _ token hc ih =>
    exact Fits.isExhaustible_append (s := .token [c] token) (.symbol hc) ih
  | case4 _ c t _ _ hc _ literal hpoint =>
    obtain ⟨rest, heq, hrest⟩ := exists_cons_of_split_eq_point hpoint
    rw [heq]
    exact isExhaustible_of_offends (.lonePoint hrest)
  | case5 _ c t _ _ hc _ literal hpoint hnone =>
    obtain ⟨v, hv⟩ := (isNumeral_split (split_ne_nil hc) hpoint).value
    cases hv.symm.trans hnone
  | case6 _ c t _ _ hc _ literal hpoint v hv ih =>
    have hnum := isNumeral_split (split_ne_nil hc) hpoint
    have happend := Fits.isExhaustible_append
      (.number hnum hv ((isLongest_iff hnum).1 isLongest_split)) ih
    rwa [text, split_append] at happend
  | case7 _ c t hblank hsymbol hc =>
    rw [Bool.not_eq_true] at hblank hc
    exact isExhaustible_of_offends (.foreign hblank hsymbol hc)

end Segment

/-! ### Whole texts -/

namespace Lexeme

open Segment (isExhaustible)

theorem ofText_of_divide (h : Divide rest segments) (hrest : Offends rest flaw) :
    ofText 0 (source segments ++ rest) = .error ⟨(source segments).length, flaw⟩ := by
  rw [h.ofText_append, Nat.zero_add, ofText_of_offends hrest]
  rfl

/-- A text is accepted if it is divided to its end, and its lexemes are those of the division. -/
theorem ofText_eq_ok_iff_divide {ls : List Lexeme} :
    ofText 0 t = .ok ls ↔
      ∃ segments, source segments = t ∧ Divide [] segments ∧ lexemes 0 segments = ls := by
  have hdivided : ∀ segments, Divide [] segments →
      ofText 0 (source segments) = .ok (lexemes 0 segments) := by
    intro segments hdivide
    have happend := hdivide.ofText_append 0
    rw [List.append_nil, ofText] at happend
    rw [happend, Except.map, List.append_nil]
  constructor
  · intro h
    obtain ⟨segments, rest, rfl, hdivide, rfl | ⟨flaw, hoffends⟩⟩ := isExhaustible t
    · rw [List.append_nil, hdivided segments hdivide] at h
      exact ⟨segments, (List.append_nil _).symm, hdivide, Except.ok.inj h⟩
    · rw [ofText_of_divide hdivide hoffends] at h
      cases h
  · rintro ⟨segments, rfl, hdivide, rfl⟩
    exact hdivided segments hdivide

theorem ofText_of_meets (h : Meets t error) : ofText 0 t = .error error := by
  obtain ⟨segments, rest, rfl, hdivide, hposition, hoffends⟩ := h
  rw [ofText_of_divide hdivide hoffends, ← hposition]

/-- A text is refused where its division comes to what starts no token. -/
theorem ofText_eq_error_iff_meets : ofText 0 t = .error error ↔ Meets t error := by
  refine ⟨fun h => ?_, ofText_of_meets⟩
  obtain ⟨segments, rest, rfl, hdivide, rfl | ⟨flaw, hoffends⟩⟩ := isExhaustible t
  · rw [List.append_nil] at h
    cases h.symm.trans (ofText_eq_ok_iff_divide.2 ⟨segments, rfl, hdivide, rfl⟩)
  · have herror := Except.error.inj (h.symm.trans (ofText_of_divide hdivide hoffends))
    subst herror
    exact ⟨segments, rest, rfl, hdivide, rfl, hoffends⟩

/-- The lexemes of a text are lossless. A text is accepted exactly if it is made up, in order, of
blanks and slices of tokens, where each number is what its slice is read as and no slice of a number
goes on in the next character; these tokens, each at the position of its slice, are the lexemes, and
they follow each other. A text is refused exactly if its division comes to a foreign character or to
a point with no digit after it where a token should start, and the first such place is reported. -/
theorem ofText_lossless (t : Text) :
    (∀ ls, ofText 0 t = .ok ls ↔
      ∃ segments, source segments = t ∧ Divide [] segments ∧ lexemes 0 segments = ls) ∧
    (∀ ls, ofText 0 t = .ok ls → ls.Pairwise fun l m => l.position < m.position) ∧
    ((∃ error, ofText 0 t = .error error) ↔ ∃ error, Meets t error) ∧
    ∀ error, ofText 0 t = .error error ↔
      Meets t error ∧ ∀ error', Meets t error' → error.position ≤ error'.position := by
  refine ⟨fun ls => ofText_eq_ok_iff_divide, fun ls h => ?_,
    exists_congr fun error => ofText_eq_error_iff_meets, fun error => ⟨fun h => ?_, fun h => ?_⟩⟩
  · obtain ⟨segments, -, hdivide, rfl⟩ := ofText_eq_ok_iff_divide.1 h
    exact hdivide.pairwise_lexemes 0
  · refine ⟨ofText_eq_error_iff_meets.1 h, fun error' h' => ?_⟩
    rw [Except.error.inj (h.symm.trans (ofText_of_meets h'))]
  · exact ofText_of_meets h.1

example : ofText 0 "1.2.3 .%".toList = .error ⟨6, .lonePoint⟩ ∧
    ofText 0 "1.2.3 5.%".toList =
      .ok [⟨0, .number 1.2⟩, ⟨3, .number 0.3⟩, ⟨6, .number 5.0⟩, ⟨8, .percent⟩] := by
  decide +kernel

end Lexeme

end KeypadCalc
