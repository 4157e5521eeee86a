import KeypadCalc.Proofs.History.Number
import KeypadCalc.Proofs.NumberText
import KeypadCalc.Proofs.Utf8

/-! The layouts in which a history is written. White space divides tokens and is passed over, so a
list of entries spells the same tokens in every layout, whatever their expressions and results are,
and is read alike. -/

namespace KeypadCalc

namespace Json

variable {t u : Text} {ts : List Token} {c : Char} {rest : Source}

theorem tokens?_space (hc : isSpace c = true) : tokens? (some c :: rest) = tokens? rest := by
  rw [tokens?, if_pos hc]

theorem spells_space (h : ∀ c ∈ t, isSpace c = true) : Spells t [] := by
  intro rest
  have hpass : tokens? (t.map some ++ rest) = tokens? rest := by
    induction t with
    | nil => rfl
    | cons c t ih =>
      obtain ⟨hc, ht⟩ := List.forall_mem_cons.1 h
      exact (tokens?_space hc).trans (ih ht)
  rw [hpass]
  exact Option.map_id'.symm

theorem ends_space (hc : isSpace c = true) (tail : Source) : Ends (some c :: tail) := by
  simp only [isSpace, Bool.or_eq_true, beq_iff_eq] at hc
  refine ⟨c, tail, rfl, ?_⟩
  rcases hc with ((rfl | rfl) | rfl) | rfl <;> decide

/-- A number is a token together with what ends it. -/
theorem spells_number {n : Numeral} (h : n.IsSpelled) (hends : ∀ rest, Ends (u.map some ++ rest))
    (hu : Spells u ts) : Spells (n.text ++ u) (.number n :: ts) := by
  intro rest
  rw [List.map_append, List.append_assoc, tokens?_number h (hends rest), hu]
  cases tokens? rest <;> rfl

end Json

namespace Entry

open Json

variable {layout : Layout} {u : Text} {ts : List Json.Token} {e : Entry} {es : List Entry}
  {v : Float}

/-- A layout puts nothing but white space between the tokens. -/
structure Layout.IsSpacing (layout : Layout) : Prop where
  newline : ∀ depth, ∀ c ∈ layout.newline depth, isSpace c = true
  afterColon : ∀ c ∈ layout.afterColon, isSpace c = true

theorem isSpacing_compact : compact.IsSpacing := ⟨fun _ => nofun, nofun⟩

theorem isSpacing_pretty : pretty.IsSpacing where
  newline := fun depth => List.forall_mem_cons.2 ⟨rfl, fun c hc => by
    rw [List.eq_of_mem_replicate hc]
    rfl⟩
  afterColon := List.forall_mem_singleton.2 rfl

/-! ### Tokens -/

/-- The token of a result: one that is not finite is written as `null`. -/
def resultToken (v : Float) : Json.Token :=
  if v.isFinite then .number (resultNumeral v) else .null

def writtenTokens (e : Entry) : List Json.Token :=
  [.openObject, .string (some expressionName), .colon, .string (some e.expression), .comma,
    .string (some resultName), .colon, resultToken e.result, .comma,
    .string (some timeName), .colon, .number (timeNumeral e.time), .closeObject]

def writtenMore (es : List Entry) : List Json.Token := es.flatMap fun e => .comma :: writtenTokens e

def writtenAll : List Entry → List Json.Token
  | [] => [.openArray, .closeArray]
  | e :: es => .openArray :: (writtenTokens e ++ writtenMore es ++ [.closeArray])

theorem text_of_not_isFinite (h : v.isFinite = false) :
    numberStyle.text v = ['n', 'u', 'l', 'l'] := by
  rcases cases_of_not_isFinite h with rfl | rfl | rfl <;> decide +kernel

theorem spells_result (v : Float) (hends : ∀ rest, Ends (u.map some ++ rest)) (hu : Spells u ts) :
    Spells (numberStyle.text v ++ u) (resultToken v :: ts) := by
  unfold resultToken
  split
  · rename_i hv
    rw [text_result hv]
    exact spells_number (isSpelled_resultNumeral hv) hends hu
  · rename_i hv
    rw [text_of_not_isFinite (by simpa using hv)]
    exact spells_null.append hu

/-- White space or the closing brace ends the last number of an entry. -/
theorem ends_closing (hl : layout.IsSpacing) (rest : Source) :
    Ends ((layout.newline 1 ++ ['\x7d']).map some ++ rest) := by
  have hspace := hl.newline 1
  cases hnewline : layout.newline 1 with
  | nil => exact ends_closeObject rest
  | cons c t =>
    rw [hnewline] at hspace
    exact ends_space (hspace c List.mem_cons_self) _

theorem spells_name (hl : layout.IsSpacing) (name : Text) :
    Spells (layout.newline 2 ++ quote name ++ ':' :: layout.afterColon)
      [.string (some name), .colon] :=
  ((spells_space (hl.newline 2)).append (spells_quote name)).append
    (spells_colon.append (spells_space hl.afterColon))

theorem spells_write (hl : layout.IsSpacing) (e : Entry) :
    Spells (write layout e) (writtenTokens e) := by
  have hclose := (spells_space (hl.newline 1)).append spells_closeObject
  have htime := (spells_name hl timeName).append <|
    spells_number (isSpelled_timeNumeral e.time) (ends_closing hl) hclose
  have hresult := ((spells_name hl resultName).append <|
    spells_result (u := [',']) e.result ends_comma spells_comma).append htime
  have hexpression := ((spells_name hl expressionName).append <|
    (spells_quote e.expression).append spells_comma).append hresult
  have hwrite := spells_openObject.append hexpression
  rw [← text_time] at hwrite
  simpa [write, writeField, writtenTokens] using hwrite

theorem spells_writeMore (hl : layout.IsSpacing) (es : List Entry) :
    Spells (writeMore layout es) (writtenMore es) := by
  induction es with
  | nil => exact .nil
  | cons e es ih =>
    have hfirst := (spells_comma.append (spells_space (hl.newline 1))).append (spells_write hl e)
    simpa [writeMore, writtenMore] using hfirst.append ih

theorem spells_writeAll (hl : layout.IsSpacing) (es : List Entry) :
    Spells (writeAll layout es) (writtenAll es) := by
  cases es with
  | nil => exact spells_openArray.append spells_closeArray
  | cons e es =>
    have hfirst := (spells_openArray.append (spells_space (hl.newline 1))).append
      (spells_write hl e)
    have hlast := (spells_space (hl.newline 0)).append spells_closeArray
    simpa [writeAll, writtenAll] using hfirst.append ((spells_writeMore hl es).append hlast)

/-- In whatever layout it is written, and with white space after it, a list is read from its
tokens. -/
theorem decodeAll?_writeAll (hl : layout.IsSpacing) (es : List Entry) (after : Text)
    (hafter : ∀ c ∈ after, isSpace c = true) :
    decodeAll? (Utf8.encode (writeAll layout es ++ after)) = readAll? (writtenAll es) := by
  have htokens := ((spells_writeAll hl es).append (spells_space hafter)).tokens?_eq
  rw [List.append_nil] at htokens
  rw [decodeAll?, Utf8.scan_encode, htokens]
  rfl

theorem decodeAll?_encodeAll_eq (es : List Entry) :
    decodeAll? (encodeAll es) = readAll? (writtenAll es) := by
  have hread := decodeAll?_writeAll isSpacing_compact es [] nofun
  rwa [List.append_nil] at hread

end Entry

end KeypadCalc
