import KeypadCalc.Proofs.Parsing

/-! The tokens of a text, without their positions. A symbol cuts a text in two that are divided by
themselves; a numeral that is all of a text is one token. -/

namespace KeypadCalc

open Decimal Decimal.Numeral

variable {position : Nat} {c : Char} {t u rest : Text} {token : Token} {ls : List Lexeme}
  {ts : List Token} {v : Float}

/-! ### Cutting at a symbol or a blank -/

/-- A numeral is made up of digits and points. -/
theorem Decimal.Numeral.IsNumeral.forall_mem (h : IsNumeral u) :
    ∀ c ∈ u, (c.isDigit || c == '.') = true := by
  intro c hc
  cases h with
  | whole _ hd => simp [hd c hc]
  | point hd hf =>
    rcases List.mem_append.1 hc with hc | hc
    · simp [hd c hc]
    · rcases List.mem_cons.1 hc with rfl | hc
      · rfl
      · simp [hf c hc]

theorem Decimal.Numeral.IsNumeral.notMem (h : IsNumeral u)
    (hc : (c.isDigit || c == '.') = false) : c ∉ u := fun hmem => by
  rw [h.forall_mem c hmem] at hc
  cases hc

theorem isDigit_of_symbol (hc : Token.ofSymbol? c = some token) :
    (c.isDigit || c == '.') = false := eq_false_of_ne_true fun h => by
  rw [Lexeme.ofSymbol?_of_isDigit h] at hc
  cases hc

theorem isDigit_of_isBlank (hc : Text.isBlank c = true) :
    (c.isDigit || c == '.') = false := eq_false_of_ne_true fun h => by
  rw [Lexeme.isBlank_of_isDigit h] at hc
  cases hc

theorem isLongest_of_append (h : IsLongest u (t ++ rest)) : IsLongest u t :=
  fun more after ht hnum => h more (after ++ rest) (by rw [ht, List.append_assoc]) hnum

/-- A numeral that ends before a character which is in no numeral is the longest if it is the
longest up to there. -/
theorem isLongest_append_cons (hc : (c.isDigit || c == '.') = false) :
    IsLongest u (t ++ c :: rest) ↔ IsLongest u t := by
  refine ⟨isLongest_of_append, fun h more after ht hnum => ?_⟩
  rcases List.append_eq_append_iff.1 ht with ⟨mid, rfl, hmid⟩ | ⟨mid, hmid, -⟩
  · cases mid with
    | nil => simpa using h (t ++ []) [] (by simp) hnum
    | cons d mid =>
      obtain ⟨rfl, -⟩ := List.cons_eq_cons.1 hmid
      exact absurd (by simp) (hnum.notMem hc)
  · exact h more mid hmid hnum

/-- The end of a text that begins with a character, counted from after the character. -/
theorem add_length_cons (position : Nat) (c : Char) (t : Text) :
    position + (c :: t).length = position + 1 + t.length := by
  rw [List.length_cons, Nat.add_comm t.length, Nat.add_assoc]

/-- A text is divided before a character that is in no numeral and from it on. -/
theorem Lexes.cut_cons (hc : (c.isDigit || c == '.') = false)
    (h : Lexes position (t ++ c :: rest) ls) :
    ∃ before after, Lexes position t before ∧ Lexes (position + t.length) (c :: rest) after ∧
      ls = before ++ after := by
  generalize hs : t ++ c :: rest = s at h
  induction h generalizing t with
  | nil => simp at hs
  | @blank position d s ls hb hl ih =>
    cases t with
    | nil =>
      obtain ⟨rfl, rfl⟩ := List.cons_eq_cons.1 hs
      exact ⟨[], ls, .nil, .blank hb hl, rfl⟩
    | cons d' t =>
      obtain ⟨rfl, rfl⟩ := List.cons_eq_cons.1 hs
      obtain ⟨before, after, hbefore, hafter, rfl⟩ := ih rfl
      rw [add_length_cons]
      exact ⟨before, after, .blank hb hbefore, hafter, rfl⟩
  | @symbol position d token' s ls hd hl ih =>
    cases t with
    | nil =>
      obtain ⟨rfl, rfl⟩ := List.cons_eq_cons.1 hs
      exact ⟨[], _, .nil, .symbol hd hl, rfl⟩
    | cons d' t =>
      obtain ⟨rfl, rfl⟩ := List.cons_eq_cons.1 hs
      obtain ⟨before, after, hbefore, hafter, rfl⟩ := ih rfl
      rw [add_length_cons]
      exact ⟨_, after, .symbol hd hbefore, hafter, rfl⟩
  | @number position u s v ls hnum hmax hv hl ih =>
    -- the character is no part of the numeral, so that it comes after it
    obtain ⟨t', rfl, rfl⟩ : ∃ t', t = u ++ t' ∧ s = t' ++ c :: rest := by
      rcases List.append_eq_append_iff.1 hs with ⟨mid, rfl, hmid⟩ | ⟨mid, rfl, hmid⟩
      · cases mid with
        | nil => exact ⟨[], by simp, hmid.symm⟩
        | cons d mid =>
          obtain ⟨rfl, -⟩ := List.cons_eq_cons.1 hmid
          exact absurd (by simp) (hnum.notMem hc)
      · exact ⟨mid, rfl, hmid⟩
    obtain ⟨before, after, hbefore, hafter, rfl⟩ := ih rfl
    rw [List.length_append, ← Nat.add_assoc]
    exact ⟨_, after, .number hnum ((isLongest_append_cons hc).1 hmax) hv hbefore, hafter, rfl⟩

theorem Lexes.append_cons {after : List Lexeme} (hc : (c.isDigit || c == '.') = false)
    (h : Lexes position t ls) (hafter : Lexes (position + t.length) (c :: rest) after) :
    Lexes position (t ++ c :: rest) (ls ++ after) := by
  induction h with
  | nil => exact hafter
  | blank hb _ ih =>
    rw [add_length_cons] at hafter
    exact .blank hb (ih hafter)
  | symbol hd _ ih =>
    rw [add_length_cons] at hafter
    exact .symbol hd (ih hafter)
  | number hnum hmax hv _ ih =>
    rw [List.length_append, ← Nat.add_assoc] at hafter
    rw [List.append_assoc]
    exact .number hnum ((isLongest_append_cons hc).2 hmax) hv (ih hafter)

theorem lexes_cons_symbol_iff (hc : Token.ofSymbol? c = some token) :
    Lexes position (c :: rest) ls ↔
      ∃ after, Lexes (position + 1) rest after ∧ ls = ⟨position, token⟩ :: after := by
  constructor
  · intro h
    generalize hs : c :: rest = s at h
    cases h with
    | nil => cases hs
    | blank hb =>
      obtain ⟨rfl, -⟩ := List.cons_eq_cons.1 hs
      rw [Lexeme.not_isBlank_of_ofSymbol? hc] at hb
      cases hb
    | symbol hd hafter =>
      obtain ⟨rfl, rfl⟩ := List.cons_eq_cons.1 hs
      obtain rfl := Option.some.inj (hc.symm.trans hd)
      exact ⟨_, hafter, rfl⟩
    | number hnum =>
      obtain ⟨d, u, rfl, -⟩ := Lexeme.isNumeral_head hnum
      obtain ⟨rfl, -⟩ := List.cons_eq_cons.1 hs
      exact absurd (by simp) (hnum.notMem (isDigit_of_symbol hc))
  · rintro ⟨after, hafter, rfl⟩
    exact .symbol hc hafter

theorem lexes_cons_blank_iff (hc : Text.isBlank c = true) :
    Lexes position (c :: rest) ls ↔ Lexes (position + 1) rest ls := by
  constructor
  · intro h
    generalize hs : c :: rest = s at h
    cases h with
    | nil => cases hs
    | blank _ hafter =>
      obtain ⟨rfl, rfl⟩ := List.cons_eq_cons.1 hs
      exact hafter
    | symbol hd =>
      obtain ⟨rfl, -⟩ := List.cons_eq_cons.1 hs
      rw [Lexeme.not_isBlank_of_ofSymbol? hd] at hc
      cases hc
    | number hnum =>
      obtain ⟨d, u, rfl, -⟩ := Lexeme.isNumeral_head hnum
      obtain ⟨rfl, -⟩ := List.cons_eq_cons.1 hs
      exact absurd (by simp) (hnum.notMem (isDigit_of_isBlank hc))
  · exact .blank hc

/-- A text with a symbol in it is divided before the symbol and after it. -/
theorem Lexes.cut (hc : Token.ofSymbol? c = some token)
    (h : Lexes position (t ++ c :: rest) ls) :
    ∃ before after, Lexes position t before ∧ Lexes (position + t.length + 1) rest after ∧
      ls = before ++ ⟨position + t.length, token⟩ :: after := by
  obtain ⟨before, _, hbefore, hlast, rfl⟩ := h.cut_cons (isDigit_of_symbol hc)
  obtain ⟨after, hafter, rfl⟩ := (lexes_cons_symbol_iff hc).1 hlast
  exact ⟨before, after, hbefore, hafter, rfl⟩

/-- The first lexemes of a text are those of the text up to where the others start. -/
theorem Lexes.split {before after : List Lexeme} (h : Lexes position t (before ++ after)) :
    ∃ a b, t = a ++ b ∧ Lexes position a before ∧
      (∀ l ∈ before, l.position < position + a.length) ∧
      Expr.start (position + t.length) after = position + a.length := by
  generalize hs : before ++ after = ls at h
  induction h generalizing before with
  | nil =>
    obtain ⟨rfl, rfl⟩ := List.append_eq_nil_iff.1 hs
    exact ⟨[], [], rfl, .nil, by simp, rfl⟩
  | @blank position c t ls hb _ ih =>
    obtain ⟨a, b, rfl, ha, hbefore, hstart⟩ := ih hs
    simp only [← add_length_cons position c] at hbefore hstart
    exact ⟨c :: a, b, rfl, .blank hb ha, hbefore, hstart⟩
  | @symbol position c token t ls hd _ ih =>
    cases before with
    | nil =>
      obtain rfl : after = _ := hs
      exact ⟨[], c :: t, rfl, .nil, by simp, rfl⟩
    | cons l before =>
      obtain ⟨rfl, rfl⟩ := List.cons_eq_cons.1 hs
      obtain ⟨a, b, rfl, ha, hbefore, hstart⟩ := ih rfl
      simp only [← add_length_cons position c] at hbefore hstart
      refine ⟨c :: a, b, rfl, .symbol hd ha, List.forall_mem_cons.2 ⟨?_, hbefore⟩, hstart⟩
      simp
  | @number position u rest v ls hnum hmax hv _ ih =>
    cases before with
    | nil =>
      obtain rfl : after = _ := hs
      exact ⟨[], u ++ rest, rfl, .nil, by simp, rfl⟩
    | cons l before =>
      obtain ⟨rfl, rfl⟩ := List.cons_eq_cons.1 hs
      obtain ⟨a, b, rfl, ha, hbefore, hstart⟩ := ih rfl
      have hpos : 0 < u.length := by
        obtain ⟨c, t, rfl, -⟩ := Lexeme.isNumeral_head hnum
        simp
      simp only [Nat.add_assoc, ← List.length_append] at hbefore hstart
      refine ⟨u ++ a, b, by rw [List.append_assoc], ?_, ?_, hstart⟩
      · exact .number hnum (isLongest_of_append hmax) hv ha
      · refine List.forall_mem_cons.2 ⟨?_, hbefore⟩
        change position < position + (u ++ a).length
        rw [List.length_append]
        omega

/-- The characters of a text that is divided into lexemes. -/
theorem Lexes.forall_mem (h : Lexes position t ls) :
    ∀ c ∈ t, Text.isBlank c = true ∨ (c.isDigit || c == '.') = true ∨
      ∃ token, Token.ofSymbol? c = some token := by
  induction h with
  | nil => simp
  | blank hb _ ih => exact List.forall_mem_cons.2 ⟨.inl hb, ih⟩
  | symbol hd _ ih => exact List.forall_mem_cons.2 ⟨.inr (.inr ⟨_, hd⟩), ih⟩
  | number hnum _ _ _ ih =>
    exact List.forall_mem_append.2 ⟨fun c hc => .inr (.inl (hnum.forall_mem c hc)), ih⟩

/-- Where a text begins makes no difference to its tokens. -/
theorem Lexes.exists_at (h : Lexes position t ls) (start : Nat) :
    ∃ ls', Lexes start t ls' ∧ ls'.map Lexeme.token = ls.map Lexeme.token := by
  induction h generalizing start with
  | nil => exact ⟨[], .nil, rfl⟩
  | blank hb _ ih =>
    obtain ⟨ls', hls', htokens⟩ := ih (start + 1)
    exact ⟨ls', .blank hb hls', htokens⟩
  | symbol hd _ ih =>
    obtain ⟨ls', hls', htokens⟩ := ih (start + 1)
    exact ⟨_, .symbol hd hls', congrArg (_ :: ·) htokens⟩
  | @number _ u _ _ _ hnum hmax hv _ ih =>
    obtain ⟨ls', hls', htokens⟩ := ih (start + u.length)
    exact ⟨_, .number hnum hmax hv hls', congrArg (_ :: ·) htokens⟩

/-! ### Tokens -/

/-- A text is divided into some tokens. -/
def HasTokens (t : Text) (ts : List Token) : Prop :=
  ∃ ls, Lexes 0 t ls ∧ ls.map Lexeme.token = ts

theorem HasTokens.unique {ts' : List Token} (h : HasTokens t ts) (h' : HasTokens t ts') :
    ts = ts' := by
  obtain ⟨ls, hls, rfl⟩ := h
  obtain ⟨ls', hls', rfl⟩ := h'
  rw [hls.unique hls']

theorem hasTokens_nil : HasTokens [] [] := ⟨[], .nil, rfl⟩

theorem hasTokens_append_symbol (hc : Token.ofSymbol? c = some token) :
    HasTokens (t ++ c :: rest) ts ↔
      ∃ before after, HasTokens t before ∧ HasTokens rest after ∧
        ts = before ++ token :: after := by
  constructor
  · rintro ⟨ls, hls, rfl⟩
    obtain ⟨before, after, hbefore, hafter, rfl⟩ := hls.cut hc
    obtain ⟨after', hafter', htokens⟩ := hafter.exists_at 0
    exact ⟨_, _, ⟨before, hbefore, rfl⟩, ⟨after', hafter', htokens⟩, by simp⟩
  · rintro ⟨_, _, ⟨before, hbefore, rfl⟩, ⟨after, hafter, rfl⟩, rfl⟩
    obtain ⟨after', hafter', htokens⟩ := hafter.exists_at (0 + t.length + 1)
    exact ⟨_, hbefore.append_cons (isDigit_of_symbol hc) (.symbol hc hafter'), by simp [htokens]⟩

/-- A blank divides the tokens of a text. -/
theorem hasTokens_append_blank (hc : Text.isBlank c = true) :
    HasTokens (t ++ c :: rest) ts ↔
      ∃ before after, HasTokens t before ∧ HasTokens rest after ∧ ts = before ++ after := by
  constructor
  · rintro ⟨ls, hls, rfl⟩
    obtain ⟨before, after, hbefore, hlast, rfl⟩ := hls.cut_cons (isDigit_of_isBlank hc)
    obtain ⟨after', hafter', htokens⟩ := ((lexes_cons_blank_iff hc).1 hlast).exists_at 0
    exact ⟨_, _, ⟨before, hbefore, rfl⟩, ⟨after', hafter', htokens⟩, List.map_append⟩
  · rintro ⟨_, _, ⟨before, hbefore, rfl⟩, ⟨after, hafter, rfl⟩, rfl⟩
    obtain ⟨after', hafter', htokens⟩ := hafter.exists_at (0 + t.length + 1)
    exact ⟨_, hbefore.append_cons (isDigit_of_isBlank hc) (.blank hc hafter'), by simp [htokens]⟩

/-- A symbol at the end of a text is its last token. -/
theorem hasTokens_concat_symbol (hc : Token.ofSymbol? c = some token) :
    HasTokens (t ++ [c]) ts ↔ ∃ before, HasTokens t before ∧ ts = before ++ [token] := by
  rw [hasTokens_append_symbol hc]
  constructor
  · rintro ⟨before, after, hbefore, hafter, rfl⟩
    rw [hafter.unique hasTokens_nil]
    exact ⟨before, hbefore, rfl⟩
  · rintro ⟨before, hbefore, rfl⟩
    exact ⟨before, [], hbefore, hasTokens_nil, rfl⟩

theorem hasTokens_numeral (hu : IsNumeral u) (hv : value? u = some v) :
    HasTokens u ts ↔ ts = [.number v] := by
  have hlongest : IsLongest u [] := fun more after h _ => (List.append_eq_nil_iff.1 h.symm).1
  have hu' : HasTokens u [.number v] := by
    have hlexes : Lexes 0 (u ++ []) [⟨0, .number v⟩] := .number hu hlongest hv .nil
    rw [List.append_nil] at hlexes
    exact ⟨_, hlexes, rfl⟩
  exact ⟨fun h => h.unique hu', fun h => h ▸ hu'⟩

/-- A numeral after a symbol is a token of its own. -/
theorem hasTokens_concat_numeral (hc : Token.ofSymbol? c = some token) (hu : IsNumeral u)
    (hv : value? u = some v) :
    HasTokens (t ++ [c] ++ u) ts ↔
      ∃ before, HasTokens (t ++ [c]) before ∧ ts = before ++ [.number v] := by
  rw [List.append_assoc, List.singleton_append, hasTokens_append_symbol hc]
  simp only [hasTokens_numeral hu hv, hasTokens_concat_symbol hc]
  constructor
  · rintro ⟨before, _, hbefore, rfl, rfl⟩
    exact ⟨_, ⟨before, hbefore, rfl⟩, by simp⟩
  · rintro ⟨_, ⟨before, hbefore, rfl⟩, rfl⟩
    exact ⟨before, _, hbefore, rfl, by simp⟩

/-- A text that ends in a digit or a point ends in a numeral, which is its last token. -/
theorem Lexes.exists_numeral (hc : (c.isDigit || c == '.') = true)
    (h : Lexes position (t ++ [c]) ls) :
    ∃ t' u front v, t ++ [c] = t' ++ u ∧ IsNumeral u ∧
      ls.map Lexeme.token = front ++ [.number v] := by
  generalize hs : t ++ [c] = s at h
  induction h generalizing t with
  | nil => simp at hs
  | @blank _ d s ls hb hl ih =>
    cases t with
    | nil =>
      obtain ⟨rfl, -⟩ := List.cons_eq_cons.1 hs
      rw [Lexeme.isBlank_of_isDigit hc] at hb
      cases hb
    | cons d' t =>
      obtain ⟨rfl, rfl⟩ := List.cons_eq_cons.1 hs
      obtain ⟨t', u, front, v, ht, hu, hls⟩ := ih rfl
      exact ⟨d' :: t', u, front, v, congrArg (d' :: ·) ht, hu, hls⟩
  | @symbol _ d token s ls hd hl ih =>
    cases t with
    | nil =>
      obtain ⟨rfl, -⟩ := List.cons_eq_cons.1 hs
      rw [Lexeme.ofSymbol?_of_isDigit hc] at hd
      cases hd
    | cons d' t =>
      obtain ⟨rfl, rfl⟩ := List.cons_eq_cons.1 hs
      obtain ⟨t', u, front, v, ht, hu, hls⟩ := ih rfl
      exact ⟨d' :: t', u, token :: front, v, congrArg (d' :: ·) ht, hu, congrArg (token :: ·) hls⟩
  | @number _ u s v ls hnum hmax hv hl ih =>
    rcases List.eq_nil_or_concat s with rfl | ⟨s', d, rfl⟩
    · rw [hl.unique .nil]
      exact ⟨[], u, [], v, by simp, hnum, rfl⟩
    · rw [List.concat_eq_append, ← List.append_assoc] at hs
      obtain ⟨rfl, hcd⟩ := List.append_inj' hs rfl
      obtain ⟨t', u', front, w, ht, hu, hls⟩ := ih (t := s') (by rw [List.concat_eq_append, hcd])
      exact ⟨u ++ t', u', .number v :: front, w, by rw [ht, List.append_assoc], hu,
        congrArg (_ :: ·) hls⟩

/-- A text that ends in a digit or a point has a number for its last token. -/
theorem exists_number_of_hasTokens (hc : (c.isDigit || c == '.') = true)
    (h : HasTokens (t ++ [c]) ts) : ∃ front v, ts = front ++ [.number v] := by
  obtain ⟨ls, hls, rfl⟩ := h
  obtain ⟨-, -, front, v, -, -, htokens⟩ := hls.exists_numeral hc
  exact ⟨front, v, htokens⟩

/-- Digits come before a point at the end of a numeral. -/
theorem Decimal.Numeral.IsNumeral.of_concat_point (h : IsNumeral (u ++ ['.'])) :
    u ≠ [] ∧ ∀ c ∈ u, c.isDigit := by
  generalize hw : u ++ ['.'] = w at h
  cases h with
  | whole _ hd => exact absurd (hd '.' (by simp [← hw])) not_isDigit_point
  | @point ds fs hd hf hne =>
    rcases List.eq_nil_or_concat fs with rfl | ⟨init, d, rfl⟩
    · obtain ⟨rfl, -⟩ := List.append_inj' hw rfl
      exact ⟨hne.resolve_right (not_not_intro rfl), hd⟩
    · rw [List.concat_eq_append, ← List.cons_append, ← List.append_assoc] at hw
      obtain ⟨-, hlast⟩ := List.append_inj' hw rfl
      obtain rfl := List.singleton_inj.1 hlast
      exact absurd (hf '.' (by simp)) not_isDigit_point

/-- A point at the end that follows no digit is no token. -/
theorem not_hasTokens_point (ht : ∀ d ∈ t.getLast?, ¬d.isDigit) : ¬HasTokens (t ++ ['.']) ts := by
  rintro ⟨ls, hls, -⟩
  obtain ⟨t', u, -, -, heq, hu, -⟩ := hls.exists_numeral rfl
  rcases List.eq_nil_or_concat u with rfl | ⟨init, d, rfl⟩
  · obtain ⟨c, t, hnil, -⟩ := Lexeme.isNumeral_head hu
    cases hnil
  · rw [List.concat_eq_append] at heq hu
    rw [← List.append_assoc] at heq
    obtain ⟨rfl, hd⟩ := List.append_inj' heq rfl
    obtain rfl := List.singleton_inj.1 hd
    obtain ⟨hne, hdigits⟩ := hu.of_concat_point
    obtain ⟨front, e, rfl⟩ := (List.eq_nil_or_concat init).resolve_left hne
    exact ht e (by simp) (hdigits e (by simp))

namespace Expr

/-- A text is worth what the grammar derives from its tokens. -/
theorem map_value_parse_eq_ok_iff :
    (parse t).map value = .ok v ↔
      ∃ ts, HasTokens t ts ∧ ∃ e, Derives .sum maxDepth ts e ∧ e.value = v := by
  simp only [map_value_eq_ok_iff, parse_eq_ok_iff, HasTokens]
  constructor
  · rintro ⟨e, ⟨ls, hls, he⟩, hvalue⟩
    exact ⟨_, ⟨ls, hls, rfl⟩, e, he, hvalue⟩
  · rintro ⟨_, ⟨ls, hls, rfl⟩, e, he, hvalue⟩
    exact ⟨e, ⟨ls, hls, he⟩, hvalue⟩

theorem parse_numeral (hu : IsNumeral u) (hv : value? u = some v) : parse u = .ok (.number v) := by
  obtain ⟨ls, hls, htokens⟩ := (hasTokens_numeral hu hv).2 rfl
  refine parse_eq_ok_iff.2 ⟨ls, hls, ?_⟩
  rw [htokens]
  exact .ofProduct (.ofFactor .number)

end Expr

end KeypadCalc
