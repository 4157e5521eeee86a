import KeypadCalc.Decimal.Style
import KeypadCalc.Json.Token
import KeypadCalc.Proofs.Json.Quoted
import Mathlib.Tactic.Common

/-! Spelling tokens. A text spells a list of tokens if these are read from its start whatever comes
after it. Brackets and quoted strings spell their tokens by themselves; a number does so together
with the character after it, which has to end it. -/

namespace KeypadCalc.Json

variable {t u : Text} {ts us : List Token} {c : Char} {rest : Source}

/-- The tokens that are read from the start of a source which begins with the text. -/
def Spells (t : Text) (ts : List Token) : Prop :=
  ∀ rest, tokens? (t.map some ++ rest) = (tokens? rest).map (ts ++ ·)

theorem Spells.append (ht : Spells t ts) (hu : Spells u us) : Spells (t ++ u) (ts ++ us) := by
  intro rest
  rw [List.map_append, List.append_assoc, ht, hu]
  cases tokens? rest <;> simp

theorem Spells.nil : Spells [] [] := by
  intro rest
  cases h : tokens? rest <;> simp [h]

theorem Spells.tokens?_eq (h : Spells t ts) : tokens? (t.map some) = some ts := by
  have := h []
  rw [List.append_nil, tokens?] at this
  simpa using this

theorem tokens?_cons {token : Token} {after : Source} (hspace : isSpace c = false)
    (h : first? c rest = some (token, after)) :
    tokens? (some c :: rest) = (tokens? after).map (token :: ·) := by
  rw [tokens?, if_neg (by simp [hspace])]
  split
  · rename_i hnone
    rw [h] at hnone
    cases hnone
  · rename_i hsome
    rw [h] at hsome
    cases hsome
    rfl

/-- A character that is a token by itself. -/
theorem Spells.single {token : Token} (hspace : isSpace c = false)
    (h : ∀ rest, first? c rest = some (token, rest)) : Spells [c] [token] :=
  fun rest => tokens?_cons hspace (h rest)

theorem spells_openArray : Spells ['['] [.openArray] := .single rfl fun _ => rfl

theorem spells_closeArray : Spells [']'] [.closeArray] := .single rfl fun _ => rfl

theorem spells_openObject : Spells ['{'] [.openObject] := .single rfl fun _ => rfl

theorem spells_closeObject : Spells ['}'] [.closeObject] := .single rfl fun _ => rfl

theorem spells_comma : Spells [','] [.comma] := .single rfl fun _ => rfl

theorem spells_colon : Spells [':'] [.colon] := .single rfl fun _ => rfl

theorem spells_null : Spells ['n', 'u', 'l', 'l'] [.null] := fun _ => tokens?_cons rfl rfl

theorem spells_quote (t : Text) : Spells (quote t) [.string (some t)] := by
  intro rest
  have hfirst : first? '"' ((t.flatMap escape).map some ++ some '"' :: rest) =
      some (.string (some t), rest) := by
    simp only [first?, pieces?_flatMap_escape, Option.map_some, content?_map_pieceOf]
  have := tokens?_cons (c := '"') rfl hfirst
  simpa [quote] using this

/-! ### Numbers -/

/-- The source goes on with a character that no number goes on with. -/
def Ends (rest : Source) : Prop :=
  ∃ c tail, rest = some c :: tail ∧ c.isDigit = false ∧ c ≠ '.' ∧ c ≠ 'e' ∧ c ≠ 'E'

theorem ends_comma (tail : Source) : Ends (some ',' :: tail) :=
  ⟨_, _, rfl, by decide, by decide, by decide, by decide⟩

theorem ends_closeObject (tail : Source) : Ends (some '\x7d' :: tail) :=
  ⟨_, _, rfl, by decide, by decide, by decide, by decide⟩

theorem takeDigits_append {ds : Text} (hd : ∀ d ∈ ds, d.isDigit = true)
    (hc : c.isDigit = false) :
    takeDigits (ds.map some ++ some c :: rest) = (ds, some c :: rest) := by
  induction ds with
  | nil => simp [takeDigits, hc]
  | cons d ds ih =>
    have hfirst := hd d (List.mem_cons_self ..)
    have hmore := ih fun e he => hd e (List.mem_cons_of_mem _ he)
    simp [takeDigits, hfirst, hmore]

namespace Numeral

/-- The text of a number without its sign. -/
def spelling (n : Numeral) : Text :=
  n.whole ++ (if n.fraction = [] then [] else '.' :: n.fraction) ++
    match n.power with
    | none => []
    | some p => 'e' :: (if p < 0 then '-' else '+') :: Decimal.digits p.natAbs

/-- The digits of a number that can be read: there are some before the point, and a zero that
begins them stands alone. -/
structure IsSpelled (n : Numeral) : Prop where
  whole : ∀ d ∈ n.whole, d.isDigit = true
  whole_ne : n.whole ≠ []
  zero : n.whole.head? = some '0' → n.whole = ['0']
  fraction : ∀ d ∈ n.fraction, d.isDigit = true

end Numeral

theorem wholeDigits_append {n : Numeral} (h : n.IsSpelled) (hc : c.isDigit = false) :
    wholeDigits (n.whole.map some ++ some c :: rest) = (n.whole, some c :: rest) := by
  unfold wholeDigits
  split
  · rename_i tail heq
    have hzero : n.whole = ['0'] := by
      apply h.zero
      have := h.whole_ne
      cases hw : n.whole with
      | nil => exact absurd hw this
      | cons d ds =>
        rw [hw] at heq
        simp only [List.map_cons, List.cons_append, List.cons.injEq, Option.some.injEq] at heq
        rw [heq.1]
        rfl
    rw [hzero] at heq ⊢
    simp only [List.map_cons, List.map_nil, List.cons_append, List.nil_append,
      List.cons.injEq, true_and] at heq
    rw [← heq]
  · exact takeDigits_append h.whole hc

theorem digits_isDigit (n : Nat) : ∀ d ∈ Decimal.digits n, d.isDigit = true :=
  fun _ hd => Nat.isDigit_of_mem_toDigits (by decide) (by decide) hd

theorem powerDigits?_append {negative : Bool} (n : Nat) (hc : c.isDigit = false) :
    powerDigits? negative ((Decimal.digits n).map some ++ some c :: rest) =
      some (some (if negative then -(n : Int) else n), some c :: rest) := by
  have hne : (Decimal.digits n).isEmpty = false := by
    simp [Decimal.digits]
  have hvalue : Nat.ofDigitChars 10 (Decimal.digits n) 0 = n := Nat.ofDigitChars_ten_toDigits
  rw [powerDigits?, takeDigits_append (digits_isDigit n) hc]
  simp [hne, hvalue]

theorem fraction?_append {n : Numeral} (h : n.IsSpelled) (hc : c.isDigit = false)
    (hpoint : c ≠ '.') :
    fraction? ((if n.fraction = [] then [] else '.' :: n.fraction).map some ++ some c :: rest) =
      some (n.fraction, some c :: rest) := by
  split
  · rename_i hnone
    rw [hnone, List.map_nil, List.nil_append, fraction?]
    exact fun tail heq => hpoint (by simpa using congrArg List.head? heq)
  · rename_i hsome
    rw [List.map_cons, List.cons_append, fraction?, takeDigits_append h.fraction hc]
    simp [hsome]

theorem power?_append {p : Int} (hc : c.isDigit = false) :
    power? (('e' :: (if p < 0 then '-' else '+') :: Decimal.digits p.natAbs).map some ++
      some c :: rest) = some (some p, some c :: rest) := by
  split
  · rename_i hneg
    simp only [List.map_cons, List.cons_append, power?]
    rw [powerDigits?_append _ hc, if_pos rfl]
    simp only [Option.some.injEq, Prod.mk.injEq, and_true]
    omega
  · rename_i hpos
    simp only [List.map_cons, List.cons_append, power?]
    rw [powerDigits?_append _ hc, if_neg (by decide)]
    simp only [Option.some.injEq, Prod.mk.injEq, and_true]
    omega

theorem unsigned?_eq_some {negative : Bool} {s s₁ s₂ s₃ : Source} {whole fraction : Text}
    {power : Option Int} (hwhole : wholeDigits s = (whole, s₁)) (hne : whole ≠ [])
    (hfraction : fraction? s₁ = some (fraction, s₂)) (hpower : power? s₂ = some (power, s₃)) :
    unsigned? negative s = some (⟨negative, whole, fraction, power⟩, s₃) := by
  have hempty : whole.isEmpty = false := by simpa using hne
  simp [unsigned?, hwhole, hempty, hfraction, hpower]

/-- The part of a number after its whole digits, once what follows it is known to end it. -/
theorem fraction_digits_end (n : Numeral) (hc : c.isDigit = false) (rest : Source) :
    ∃ d tail, (if n.fraction = [] then [] else '.' :: n.fraction).map some ++ some c :: rest =
      some d :: tail ∧ d.isDigit = false := by
  split
  · exact ⟨c, rest, rfl, hc⟩
  · exact ⟨'.', _, rfl, by decide⟩

theorem unsigned?_append {n : Numeral} (h : n.IsSpelled) (hrest : Ends rest) :
    unsigned? n.negative (n.spelling.map some ++ rest) = some (n, rest) := by
  obtain ⟨c, tail, rfl, hdigit, hpoint, he, hE⟩ := hrest
  have hpower : ∃ d after, (match n.power with
      | none => []
      | some p => 'e' :: (if p < 0 then '-' else '+') :: Decimal.digits p.natAbs).map some ++
        some c :: tail = some d :: after ∧ d.isDigit = false ∧ d ≠ '.' ∧
        power? (some d :: after) = some (n.power, some c :: tail) := by
    cases hp : n.power with
    | none =>
      refine ⟨c, tail, rfl, hdigit, hpoint, ?_⟩
      rw [power?]
      · exact fun _ heq => he (by simpa using congrArg List.head? heq)
      · exact fun _ heq => hE (by simpa using congrArg List.head? heq)
    | some p => exact ⟨'e', _, rfl, by decide, by decide, power?_append hdigit⟩
  obtain ⟨d, after, heq, hd, hdpoint, hread⟩ := hpower
  obtain ⟨b, between, hbetween, hb⟩ := fraction_digits_end n hd after
  have hspelling : n.spelling.map some ++ some c :: tail =
      n.whole.map some ++ some b :: between := by
    rw [← hbetween, ← heq]
    simp only [Numeral.spelling, List.map_append, List.append_assoc]
  rw [hspelling]
  exact unsigned?_eq_some (wholeDigits_append h hb) h.whole_ne
    (hbetween ▸ fraction?_append h hd hdpoint) hread

def Numeral.text (n : Numeral) : Text :=
  if n.negative then '-' :: n.spelling else n.spelling

theorem first?_digit (hc : c.isDigit = true) (rest : Source) :
    first? c rest = (unsigned? Bool.false (some c :: rest)).map fun r => (.number r.1, r.2) := by
  unfold first?
  split
  case h_12 => rfl
  all_goals exact absurd hc (by decide)

theorem isSpace_of_isDigit (hc : c.isDigit = true) : isSpace c = false := by
  simp only [isSpace, Bool.or_eq_false_iff, beq_eq_false_iff_ne]
  refine ⟨⟨⟨?_, ?_⟩, ?_⟩, ?_⟩ <;> (rintro rfl; exact absurd hc (by decide))

theorem tokens?_number {n : Numeral} (h : n.IsSpelled) (hrest : Ends rest) :
    tokens? (n.text.map some ++ rest) = (tokens? rest).map (.number n :: ·) := by
  have hread := unsigned?_append h hrest
  unfold Numeral.text
  cases hnegative : n.negative
  · rw [hnegative] at hread
    obtain ⟨d, more, hspelling, hd⟩ : ∃ d more, n.spelling = d :: more ∧ d.isDigit = true := by
      have hne := h.whole_ne
      have hdigits := h.whole
      unfold Numeral.spelling
      cases hwhole : n.whole with
      | nil => exact absurd hwhole hne
      | cons d ds => exact ⟨d, _, rfl, hdigits d (by simp [hwhole])⟩
    rw [hspelling, List.map_cons, List.cons_append] at hread
    have hfirst : first? d (more.map some ++ rest) = some (.number n, rest) := by
      rw [first?_digit hd, hread]
      rfl
    simp only [hspelling, Bool.false_eq_true, if_false]
    exact tokens?_cons (isSpace_of_isDigit hd) hfirst
  · rw [hnegative] at hread
    have hfirst : first? '-' (n.spelling.map some ++ rest) = some (.number n, rest) := by
      simp only [first?, hread, Option.map_some]
    exact tokens?_cons rfl hfirst

end KeypadCalc.Json
