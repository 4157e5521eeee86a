import KeypadCalc.Proofs.Parsing.FirstError
import Mathlib.Data.List.Forall2

/-! Blanks between tokens. Texts that differ in blanks only are divided into the same tokens, unless
a blank parts two digits or points in one of them that stand side by side in the other. So they are
read as the same expression, or fail in the same way at corresponding places. -/

namespace KeypadCalc

open Decimal.Numeral (split value?)

variable {a t u rest rest' : Text} {c d : Char} {n p q x y : Nat}

namespace Text

def unspaced (t : Text) : Text := t.filter fun c => !isBlank c

/-- Where the character with the number `n` stands, blanks not counted; the end of the text if there
is none. -/
def place (t : Text) (n : Nat) : Nat := t.findIdxNth (fun c => !isBlank c) n

theorem unspaced_blank (hc : isBlank c = true) : unspaced (c :: t) = unspaced t :=
  List.filter_cons_of_neg (by simp [hc])

theorem unspaced_cons (hc : isBlank c = false) : unspaced (c :: t) = c :: unspaced t :=
  List.filter_cons_of_pos (by simp [hc])

theorem place_blank (hc : isBlank c = true) : place (c :: t) n = place t n + 1 :=
  List.findIdxNth_cons_of_neg (by simp [hc])

theorem place_zero (hc : isBlank c = false) : place (c :: t) 0 = 0 :=
  List.findIdxNth_cons_zero_of_pos (by simp [hc])

theorem place_succ (hc : isBlank c = false) : place (c :: t) (n + 1) = place t n + 1 :=
  List.findIdxNth_cons_succ_of_pos (by simp [hc])

theorem place_end (h : t.length ≤ n) : place t n = t.length :=
  List.findIdxNth_eq_length_of_ge_countP (List.countP_le_length.trans h)

/-- A text that begins with a digit or a point. -/
def BeginsNumeric (t : Text) : Prop := ∃ c ∈ t.head?, (c.isDigit || c == '.') = true

theorem beginsNumeric_cons : BeginsNumeric (c :: t) ↔ (c.isDigit || c == '.') = true := by
  simp [BeginsNumeric]

end Text

open Text (unspaced place BeginsNumeric isBlank)

/-- Two texts are the same but for blanks, and of the digits and points that follow each other in
them the same ones stand side by side. -/
structure Respaced (t u : Text) : Prop where
  same : unspaced t = unspaced u
  joined : ∀ n, ∀ c ∈ (unspaced t)[n]?, ∀ d ∈ (unspaced t)[n + 1]?,
    (c.isDigit || c == '.') = true → (d.isDigit || d == '.') = true →
      (place t (n + 1) = place t n + 1 ↔ place u (n + 1) = place u n + 1)

namespace Respaced

instance : Decidable (Respaced t u) :=
  have (n : Nat) : Decidable (∀ c ∈ (unspaced t)[n]?, ∀ d ∈ (unspaced t)[n + 1]?,
      (c.isDigit || c == '.') = true → (d.isDigit || d == '.') = true →
        (place t (n + 1) = place t n + 1 ↔ place u (n + 1) = place u n + 1)) :=
    @Option.decidableForallMem _ _ (fun _ => Option.decidableForallMem _) _
  decidable_of_iff (unspaced t = unspaced u ∧ ∀ n < (unspaced t).length,
      ∀ c ∈ (unspaced t)[n]?, ∀ d ∈ (unspaced t)[n + 1]?,
        (c.isDigit || c == '.') = true → (d.isDigit || d == '.') = true →
          (place t (n + 1) = place t n + 1 ↔ place u (n + 1) = place u n + 1))
    ⟨fun h => ⟨h.1, fun n c hc => h.2 n (List.getElem?_eq_some_iff.1 hc).1 c hc⟩,
      fun h => ⟨h.same, fun n _ => h.joined n⟩⟩

theorem symm (h : Respaced t u) : Respaced u t :=
  ⟨h.same.symm, fun n c hc d hd hc' hd' =>
    (h.joined n c (h.same ▸ hc) d (h.same ▸ hd) hc' hd').symm⟩

theorem of_blank (hc : isBlank c = true) (h : Respaced (c :: t) u) : Respaced t u := by
  obtain ⟨hsame, hjoined⟩ := h
  rw [Text.unspaced_blank hc] at hsame hjoined
  refine ⟨hsame, fun n d hd e he hd' he' => ?_⟩
  have hn := hjoined n d hd e he hd' he'
  simp only [Text.place_blank hc] at hn
  omega

theorem of_cons (hc : isBlank c = false) (h : Respaced (c :: t) (c :: u)) : Respaced t u := by
  obtain ⟨hsame, hjoined⟩ := h
  rw [Text.unspaced_cons hc] at hsame hjoined
  rw [Text.unspaced_cons hc] at hsame
  refine ⟨(List.cons_eq_cons.1 hsame).2, fun n d hd e he hd' he' => ?_⟩
  have hn := hjoined (n + 1) d (by simpa using hd) e (by simpa using he) hd' he'
  simp only [Text.place_succ hc] at hn
  omega

/-- A digit or point that directly follows another one does so in both texts. -/
theorem beginsNumeric (hc : (c.isDigit || c == '.') = true) (h : Respaced (c :: t) (c :: u))
    (ht : BeginsNumeric t) : BeginsNumeric u := by
  obtain ⟨d, hd, hnumeric⟩ := ht
  obtain ⟨t, rfl⟩ := List.head?_eq_some_iff.1 hd
  have hcblank := Lexeme.isBlank_of_isDigit hc
  have hdblank := Lexeme.isBlank_of_isDigit hnumeric
  have hsame := (h.of_cons hcblank).same
  have hplace := h.joined 0 c (by simp [Text.unspaced_cons, hcblank]) d
    (by simp [Text.unspaced_cons, hcblank, hdblank]) hc hnumeric
  simp only [Text.place_succ hcblank, Text.place_zero hcblank, Text.place_zero hdblank,
    true_iff] at hplace
  cases u with
  | nil =>
    rw [Text.unspaced_cons hdblank] at hsame
    cases hsame
  | cons e u =>
    cases he : isBlank e with
    | true =>
      rw [Text.place_blank he] at hplace
      omega
    | false =>
      rw [Text.unspaced_cons hdblank, Text.unspaced_cons he] at hsame
      obtain ⟨rfl, -⟩ := List.cons_eq_cons.1 hsame
      exact Text.beginsNumeric_cons.2 hnumeric

theorem cases (h : Respaced t u) :
    (t = [] ∧ u = []) ∨
      (∃ c rest, t = c :: rest ∧ isBlank c = true ∧ Respaced rest u) ∨
      (∃ c rest, u = c :: rest ∧ isBlank c = true ∧ Respaced t rest) ∨
      ∃ c rest rest', t = c :: rest ∧ u = c :: rest' ∧ isBlank c = false ∧ Respaced rest rest' := by
  cases t with
  | nil =>
    cases u with
    | nil => exact .inl ⟨rfl, rfl⟩
    | cons d u =>
      cases hd : isBlank d with
      | true => exact .inr (.inr (.inl ⟨d, u, rfl, hd, (h.symm.of_blank hd).symm⟩))
      | false =>
        have hsame := h.same
        rw [Text.unspaced_cons hd] at hsame
        cases hsame
  | cons c t =>
    cases hc : isBlank c with
    | true => exact .inr (.inl ⟨c, t, rfl, hc, h.of_blank hc⟩)
    | false =>
      have hsame := h.same
      rw [Text.unspaced_cons hc] at hsame
      cases u with
      | nil => cases hsame
      | cons d u =>
        cases hd : isBlank d with
        | true => exact .inr (.inr (.inl ⟨d, u, rfl, hd, (h.symm.of_blank hd).symm⟩))
        | false =>
          rw [Text.unspaced_cons hd] at hsame
          obtain ⟨rfl, -⟩ := List.cons_eq_cons.1 hsame
          exact .inr (.inr (.inr ⟨c, t, u, rfl, rfl, hc, h.of_cons hc⟩))

/-! ### Numerals -/

/-- Texts that are alike up to blanks and both begin with a digit or a point, or neither does. -/
def Joined (t u : Text) : Prop := Respaced t u ∧ (BeginsNumeric t ↔ BeginsNumeric u)

theorem joined_cons (hc : (c.isDigit || c == '.') = true) (h : Respaced (c :: t) (c :: u)) :
    Joined t u :=
  ⟨h.of_cons (Lexeme.isBlank_of_isDigit hc), h.beginsNumeric hc, h.symm.beginsNumeric hc⟩

theorem Joined.symm (h : Joined t u) : Joined u t := ⟨h.1.symm, h.2.symm⟩

/-- Both texts begin with the same digit or point. -/
theorem Joined.exists_cons (hc : (c.isDigit || c == '.') = true) (h : Joined (c :: t) u) :
    ∃ rest, u = c :: rest ∧ Joined t rest := by
  obtain ⟨d, hd, hnumeric⟩ := h.2.1 (Text.beginsNumeric_cons.2 hc)
  obtain ⟨u, rfl⟩ := List.head?_eq_some_iff.1 hd
  have hsame := h.1.same
  rw [Text.unspaced_cons (Lexeme.isBlank_of_isDigit hc),
    Text.unspaced_cons (Lexeme.isBlank_of_isDigit hnumeric)] at hsame
  obtain ⟨rfl, -⟩ := List.cons_eq_cons.1 hsame
  exact ⟨u, rfl, joined_cons hc h.1⟩

/-- Where one text begins with no digit, neither does the other. -/
theorem Joined.isDigit_head? (h : Joined t u) (ht : ∀ c ∈ t.head?, c.isDigit = false) :
    ∀ c ∈ u.head?, c.isDigit = false := by
  intro c hc
  obtain ⟨u, rfl⟩ := List.head?_eq_some_iff.1 hc
  by_contra hdigit
  obtain ⟨t, rfl, -⟩ := h.symm.exists_cons (by simp [hdigit])
  exact hdigit (ht c rfl)

theorem digits_of_head? (h : ∀ c ∈ t.head?, c.isDigit = false) :
    t.takeWhile Char.isDigit = [] ∧ t.dropWhile Char.isDigit = t := by
  cases t with
  | nil => exact ⟨rfl, rfl⟩
  | cons c t => simp [h c rfl]

/-- The same digits are taken off both texts. -/
theorem Joined.digits (h : Joined t u) :
    t.takeWhile Char.isDigit = u.takeWhile Char.isDigit ∧
      Joined (t.dropWhile Char.isDigit) (u.dropWhile Char.isDigit) := by
  induction t generalizing u with
  | nil =>
    obtain ⟨htake, hdrop⟩ := digits_of_head? (h.isDigit_head? (by simp))
    rw [htake, hdrop]
    exact ⟨rfl, h⟩
  | cons c t ih =>
    cases hc : c.isDigit with
    | false =>
      have ht : ∀ d ∈ (c :: t).head?, d.isDigit = false := by simpa using hc
      obtain ⟨htake, hdrop⟩ := digits_of_head? ht
      obtain ⟨htake', hdrop'⟩ := digits_of_head? (h.isDigit_head? ht)
      rw [htake, hdrop, htake', hdrop']
      exact ⟨rfl, h⟩
    | true =>
      obtain ⟨u, rfl, hrest⟩ := h.exists_cons (by simp [hc])
      obtain ⟨htake, hdrop⟩ := ih hrest
      rw [List.takeWhile_cons_of_pos hc, List.takeWhile_cons_of_pos hc, htake,
        List.dropWhile_cons_of_pos hc, List.dropWhile_cons_of_pos hc]
      exact ⟨rfl, hdrop⟩

/-- The same numeral is taken off both texts. -/
theorem Joined.split (h : Joined t u) :
    (split t).1 = (split u).1 ∧ Joined (split t).2 (split u).2 := by
  obtain ⟨htake, hdrop⟩ := h.digits
  have hpoint : ('.'.isDigit || '.' == '.') = true := rfl
  unfold Decimal.Numeral.split
  rw [htake]
  generalize t.dropWhile Char.isDigit = t' at hdrop ⊢
  generalize u.dropWhile Char.isDigit = u' at hdrop ⊢
  by_cases ht' : ∃ rest, t' = '.' :: rest
  · obtain ⟨fraction, rfl⟩ := ht'
    obtain ⟨fraction', rfl, hfraction⟩ := hdrop.exists_cons hpoint
    obtain ⟨htake', hdrop'⟩ := hfraction.digits
    exact ⟨congrArg (u.takeWhile Char.isDigit ++ '.' :: ·) htake', hdrop'⟩
  · have hu' : ¬∃ rest, u' = '.' :: rest := by
      rintro ⟨fraction, rfl⟩
      obtain ⟨fraction', heq, -⟩ := hdrop.symm.exists_cons hpoint
      exact ht' ⟨fraction', heq⟩
    split
    · exact absurd ⟨_, rfl⟩ ht'
    · split
      · exact absurd ⟨_, rfl⟩ hu'
      · exact ⟨rfl, hdrop⟩

end Respaced

/-! ### Corresponding positions -/

/-- Positions in two texts, which begin at `p` and `q`, of the characters with the same number or of
the ends. -/
def Corresponds (p : Nat) (t : Text) (q : Nat) (u : Text) (x y : Nat) : Prop :=
  ∃ n, x = p + place t n ∧ y = q + place u n

namespace Corresponds

theorem blank_left (hc : isBlank c = true) (h : Corresponds (p + 1) t q u x y) :
    Corresponds p (c :: t) q u x y := by
  obtain ⟨n, rfl, rfl⟩ := h
  exact ⟨n, by rw [Text.place_blank hc]; omega, rfl⟩

theorem blank_right (hc : isBlank c = true) (h : Corresponds p t (q + 1) u x y) :
    Corresponds p t q (c :: u) x y := by
  obtain ⟨n, rfl, rfl⟩ := h
  exact ⟨n, rfl, by rw [Text.place_blank hc]; omega⟩

theorem head (hc : isBlank c = false) : Corresponds p (c :: t) q (c :: u) p q :=
  ⟨0, by rw [Text.place_zero hc]; rfl, by rw [Text.place_zero hc]; rfl⟩

theorem cons (hc : isBlank c = false) (h : Corresponds (p + 1) t (q + 1) u x y) :
    Corresponds p (c :: t) q (c :: u) x y := by
  obtain ⟨n, rfl, rfl⟩ := h
  exact ⟨n + 1, by rw [Text.place_succ hc]; omega, by rw [Text.place_succ hc]; omega⟩

theorem append (ha : ∀ c ∈ a, isBlank c = false)
    (h : Corresponds (p + a.length) t (q + a.length) u x y) :
    Corresponds p (a ++ t) q (a ++ u) x y := by
  induction a generalizing p q with
  | nil => exact h
  | cons c a ih =>
    obtain ⟨hc, ha⟩ := List.forall_mem_cons.1 ha
    rw [add_length_cons, add_length_cons] at h
    exact (ih ha h).cons hc

theorem ends (p q : Nat) (t u : Text) :
    Corresponds p t q u (p + t.length) (q + u.length) :=
  ⟨t.length + u.length, by rw [Text.place_end (by omega)], by rw [Text.place_end (by omega)]⟩

end Corresponds

/-! ### Lexemes -/

variable {P Q : Nat → Nat → Prop} {l m : Lexeme} {ls ms : List Lexeme}

/-- The same token at positions that are related. -/
def SameToken (P : Nat → Nat → Prop) (l m : Lexeme) : Prop :=
  P l.position m.position ∧ l.token = m.token

theorem map_token_eq (h : List.Forall₂ (SameToken P) ls ms) :
    ls.map Lexeme.token = ms.map Lexeme.token := by
  induction h with
  | nil => rfl
  | cons hfirst _ ih => rw [List.map_cons, List.map_cons, hfirst.2, ih]

/-- Two texts are divided into the same tokens, or have the same flaw, at related positions. -/
inductive DividedAlike (P : Nat → Nat → Prop) :
    Except SyntaxError (List Lexeme) → Except SyntaxError (List Lexeme) → Prop
  | ok {ls ms : List Lexeme} : List.Forall₂ (SameToken P) ls ms → DividedAlike P (.ok ls) (.ok ms)
  | error {x y : Nat} (flaw : Flaw) : P x y → DividedAlike P (.error ⟨x, flaw⟩) (.error ⟨y, flaw⟩)

theorem DividedAlike.mono {r r' : Except SyntaxError (List Lexeme)}
    (hPQ : ∀ x y, P x y → Q x y) (h : DividedAlike P r r') : DividedAlike Q r r' := by
  cases h with
  | ok h => exact .ok (h.imp fun _ _ hsame => ⟨hPQ _ _ hsame.1, hsame.2⟩)
  | error flaw h => exact .error flaw (hPQ _ _ h)

theorem DividedAlike.cons {r r' : Except SyntaxError (List Lexeme)} (hl : SameToken P l m)
    (h : DividedAlike P r r') : DividedAlike P (r.map (l :: ·)) (r'.map (m :: ·)) := by
  cases h with
  | ok h => exact .ok (.cons hl h)
  | error flaw h => exact .error flaw h

theorem isBlank_of_mem_split (h : c ∈ (split t).1) : isBlank c = false := by
  by_cases hpoint : (split t).1 = ['.']
  · rw [hpoint, List.mem_singleton] at h
    rw [h]
    rfl
  · have hnumeral := Decimal.Numeral.isNumeral_split (List.ne_nil_of_mem h) hpoint
    exact Lexeme.isBlank_of_isDigit (hnumeral.forall_mem c h)

/-- Both texts begin with a numeral, and what follows it is alike again. -/
theorem dividedAlike_numeric (hc : (c.isDigit || c == '.') = true)
    (hsplit : (split (c :: t)).1 = (split (c :: u)).1)
    (hrest : ∀ p q, DividedAlike (Corresponds p (split (c :: t)).2 q (split (c :: u)).2)
      (Lexeme.ofText p (split (c :: t)).2) (Lexeme.ofText q (split (c :: u)).2)) (p q : Nat) :
    DividedAlike (Corresponds p (c :: t) q (c :: u)) (Lexeme.ofText p (c :: t))
      (Lexeme.ofText q (c :: u)) := by
  have hhead : Corresponds p (c :: t) q (c :: u) p q := .head (Lexeme.isBlank_of_isDigit hc)
  have ht := Decimal.Numeral.split_append (c :: t)
  have hu := Decimal.Numeral.split_append (c :: u)
  rw [Lexeme.ofText_cons_numeric hc, Lexeme.ofText_cons_numeric hc, ← hsplit]
  rw [← hsplit] at hu
  split
  · exact .error _ hhead
  · cases value? (split (c :: t)).1 with
    | none => exact .error _ hhead
    | some v =>
      refine .cons ⟨hhead, rfl⟩ ((hrest _ _).mono fun x y hxy => ?_)
      have happend := hxy.append fun d hd => isBlank_of_mem_split hd
      rwa [ht, hu] at happend

/-- The lexemes are compared from the left, passing over the blanks of either text. -/
theorem dividedAlike_ofText (h : Respaced t u) (p q : Nat) :
    DividedAlike (Corresponds p t q u) (Lexeme.ofText p t) (Lexeme.ofText q u) := by
  induction hn : t.length + u.length using Nat.strong_induction_on generalizing t u p q with
  | _ n ih =>
    rcases h.cases with ⟨rfl, rfl⟩ | ⟨c, rest, rfl, hc, hrest⟩ | ⟨c, rest, rfl, hc, hrest⟩ |
      ⟨c, rest, rest', rfl, rfl, hc, hrest⟩
    · rw [Lexeme.ofText, Lexeme.ofText]
      exact .ok .nil
    · rw [Lexeme.ofText_cons_blank hc]
      rw [List.length_cons] at hn
      exact (ih _ (by omega) hrest (p + 1) q rfl).mono fun _ _ => .blank_left hc
    · rw [Lexeme.ofText_cons_blank hc]
      rw [List.length_cons] at hn
      exact (ih _ (by omega) hrest p (q + 1) rfl).mono fun _ _ => .blank_right hc
    · cases hsymbol : Token.ofSymbol? c with
      | some token =>
        rw [Lexeme.ofText_cons_symbol hsymbol, Lexeme.ofText_cons_symbol hsymbol]
        rw [List.length_cons, List.length_cons] at hn
        have hmore := ih _ (by omega) hrest (p + 1) (q + 1) rfl
        exact (hmore.mono fun _ _ => Corresponds.cons hc).cons ⟨.head hc, rfl⟩
      | none =>
        cases hnumeric : (c.isDigit || c == '.') with
        | true =>
          have hjoined : Respaced.Joined (c :: rest) (c :: rest') :=
            ⟨h, by rw [Text.beginsNumeric_cons, Text.beginsNumeric_cons]⟩
          obtain ⟨hsplit, hafter⟩ := hjoined.split
          have ht := Lexeme.length_split_lt (t := rest) hnumeric
          have hu := Lexeme.length_split_lt (t := rest') hnumeric
          exact dividedAlike_numeric hnumeric hsplit
            (fun p q => ih _ (by omega) hafter.1 p q rfl) p q
        | false =>
          rw [Lexeme.ofText_cons_foreign hc hsymbol hnumeric,
            Lexeme.ofText_cons_foreign hc hsymbol hnumeric]
          exact .error _ (.head hc)

/-! ### Expressions -/

namespace Expr

open Stage (run? flaw?)

variable {size size' limit : Nat} {s : Stage} {error : SyntaxError}

theorem forall₂_start (h : List.Forall₂ (SameToken P) ls ms) (hsize : P size size') :
    P (start size ls) (start size' ms) := by
  cases h with
  | nil => exact hsize
  | cons hfirst => exact hfirst.1

/-- Where the first of two lists of lexemes fails to go on, the other one fails likewise. -/
theorem FailsAt.exists_of_forall₂ (h : List.Forall₂ (SameToken P) ls ms) (hsize : P size size')
    (hfails : FailsAt limit size s ls error) :
    ∃ y, P error.position y ∧ FailsAt limit size' s ms ⟨y, error.flaw⟩ := by
  obtain ⟨used, rest, s', rfl, hused, hflaw, hposition⟩ := hfails
  have hfront := List.forall₂_take used.length h
  have hback := List.forall₂_drop used.length h
  rw [List.take_left] at hfront
  rw [List.drop_left] at hback
  rw [map_token_eq hfront] at hused
  rw [← List.head?_map, map_token_eq hback, List.head?_map] at hflaw
  refine ⟨start size' (ms.drop used.length), ?_, _, _, s',
    (List.take_append_drop used.length ms).symm, hused, hflaw, rfl⟩
  rw [hposition]
  exact forall₂_start hback hsize

theorem parse_of_respaced (h : Respaced t u) :
    (∃ e, parse t = .ok e ∧ parse u = .ok e) ∨
      ∃ n flaw, parse t = .error ⟨t.place n, flaw⟩ ∧ parse u = .error ⟨u.place n, flaw⟩ := by
  have hdivided := dividedAlike_ofText h 0 0
  generalize ht : Lexeme.ofText 0 t = r, hu : Lexeme.ofText 0 u = r' at hdivided
  cases hdivided with
  | error flaw hplace =>
    obtain ⟨n, rfl, rfl⟩ := hplace
    rw [Nat.zero_add] at ht hu
    exact .inr ⟨n, flaw, by rw [parse, ht]; rfl, by rw [parse, hu]; rfl⟩
  | @ok ls ms hsame =>
    have hls := Lexeme.lexes_of_ofText ht
    have hms := Lexeme.lexes_of_ofText hu
    cases hparse : parse t with
    | ok e =>
      obtain ⟨ls', hls', he⟩ := parse_eq_ok_iff.1 hparse
      rw [hls'.unique hls, map_token_eq hsame] at he
      exact .inl ⟨e, rfl, parse_eq_ok_iff.2 ⟨ms, hms, he⟩⟩
    | error error =>
      have hsize : Corresponds 0 t 0 u t.length u.length := by
        simpa using Corresponds.ends 0 0 t u
      obtain ⟨_, ⟨n, hx, rfl⟩, hfails⟩ :=
        ((parse_eq_error_iff hls).1 hparse).exists_of_forall₂ hsame hsize
      rw [Nat.zero_add] at hx hfails
      refine .inr ⟨n, error.flaw, ?_, (parse_eq_error_iff hms).2 hfails⟩
      rw [← hx]

/-- Blanks between tokens make no difference to a text. Two texts that have the same characters but
for blanks, of which the same digits and points stand side by side, have the same value or the same
flaw, which stands at corresponding characters or at both ends. -/
theorem map_value_parse_respaced (h : Respaced t u) :
    (∃ v, (parse t).map value = .ok v ∧ (parse u).map value = .ok v) ∨
      ∃ n flaw, (parse t).map value = .error ⟨t.place n, flaw⟩ ∧
        (parse u).map value = .error ⟨u.place n, flaw⟩ := by
  rcases parse_of_respaced h with ⟨e, ht, hu⟩ | ⟨n, flaw, ht, hu⟩
  · exact .inl ⟨e.value, by rw [ht]; rfl, by rw [hu]; rfl⟩
  · exact .inr ⟨n, flaw, by rw [ht]; rfl, by rw [hu]; rfl⟩

/-- A number follows another one in both texts, and the blanks before it move the error. -/
theorem map_value_parse_respaced_of_two_numbers :
    let t : Text := ['1', '.', '2', ' ', '.', '5']
    let u : Text := ['\t', '1', '.', '2', '\u3000', '\n', '.', '5', ' ']
    Respaced t u ∧ (parse t).map value = .error ⟨4, .surplus (.number 0.5)⟩ ∧
      (parse u).map value = .error ⟨6, .surplus (.number 0.5)⟩ := by
  intro t u
  have h : Respaced t u := by decide +kernel
  have ht : (parse t).map value = .error ⟨4, .surplus (.number 0.5)⟩ := by decide +kernel
  refine ⟨h, ht, ?_⟩
  rcases map_value_parse_respaced h with ⟨v, hv, -⟩ | ⟨n, flaw, hn, hu⟩
  · cases ht.symm.trans hv
  · have herror := Except.error.inj (ht.symm.trans hn)
    have hplace : 4 = t.place n := congrArg SyntaxError.position herror
    have hlt : n < t.length := by
      by_contra hle
      rw [Text.place_end (not_lt.1 hle)] at hplace
      exact absurd hplace (by decide)
    have hthree : ∀ n < t.length, 4 = t.place n → n = 3 := by decide
    obtain rfl := hthree n hlt hplace
    rw [hu, ← show Flaw.surplus (.number 0.5) = flaw from congrArg SyntaxError.flaw herror]
    rfl

end Expr

end KeypadCalc
