import KeypadCalc.Proofs.History.Layout

/-! Reading a stored history back. What is written of a list of entries spells the tokens of its
fields. If all results are finite, these are read as the same entries but for their results, which
are read as `reread` says; otherwise nothing is read. -/

namespace KeypadCalc.Entry

open Json

variable {e : Entry} {es : List Entry}

/-- The entry with a result that has been written and read again. -/
def reloaded (e : Entry) : Entry := { e with result := reread e.result }

/-! ### Reading -/

theorem fields?_eq (found : Found) (name : Text) (value : List Json.Token) :
    fields? found (.string (some name) :: .colon :: value) =
      match found.read? name value with
      | some (found', .comma :: rest) => fields? found' rest
      | some (found', .closeObject :: rest) => found'.entry?.map (·, rest)
      | _ => none := by
  rw [fields?]
  split
  · rename_i heq
    simp only [heq]
  · rename_i heq
    rw [heq]
  · rename_i hcomma hclose
    split
    · exact absurd ‹_› (hcomma _ _)
    · exact absurd ‹_› (hclose _ _)
    · rfl

theorem fields?_comma {found found' : Found} {name : Text} {value rest : List Json.Token}
    (h : found.read? name value = some (found', .comma :: rest)) :
    fields? found (.string (some name) :: .colon :: value) = fields? found' rest := by
  rw [fields?_eq, h]

theorem fields?_closeObject {found found' : Found} {name : Text} {value rest : List Json.Token}
    (h : found.read? name value = some (found', .closeObject :: rest)) :
    fields? found (.string (some name) :: .colon :: value) = found'.entry?.map (·, rest) := by
  rw [fields?_eq, h]

theorem read?_expression (t : Text) (rest : List Json.Token) :
    Found.read? {} expressionName (.string (some t) :: rest) =
      some ({ expression := some t }, rest) := by
  unfold Found.read?
  rw [if_pos rfl]
  rfl

theorem floatOf?_resultToken (v : Float) :
    floatOf? (resultToken v) = if v.isFinite then some (reread v) else none := by
  unfold resultToken
  split
  · rename_i hv
    exact toFloat?_resultNumeral hv
  · rfl

theorem read?_result (t : Text) (v : Float) (rest : List Json.Token) :
    Found.read? { expression := some t } resultName (resultToken v :: rest) =
      if v.isFinite then some ({ expression := some t, result := some (reread v) }, rest)
      else none := by
  unfold Found.read?
  rw [if_neg (by decide), if_pos rfl]
  simp only [floatOf?_resultToken]
  split <;> rfl

theorem read?_time {t : Text} {v : Float} {time : Int64} {n : Numeral}
    (h : timeOf? (.number n) = some time) (rest : List Json.Token) :
    Found.read? { expression := some t, result := some v } timeName (.number n :: rest) =
      some (⟨some t, some v, some time⟩, rest) := by
  unfold Found.read?
  rw [if_neg (by decide), if_neg (by decide), if_pos rfl]
  simp only [h, Option.map_some]

/-- An entry is read up to its closing brace if its result is finite. -/
theorem read?_writtenTokens (e : Entry) (rest : List Json.Token) :
    read? (writtenTokens e ++ rest) =
      if e.result.isFinite then some (e.reloaded, rest) else none := by
  simp only [writtenTokens, List.cons_append, List.nil_append, read?]
  rw [fields?_comma (read?_expression ..), fields?_eq, read?_result]
  cases e.result.isFinite with
  | false => rfl
  | true =>
    simp only [if_true]
    rw [fields?_closeObject (read?_time (timeOf?_timeNumeral e.time) _)]
    rfl

theorem readMore?_eq (tokens : List Json.Token) :
    readMore? tokens =
      match read? tokens with
      | some (e, .comma :: rest) => (readMore? rest).map (e :: ·)
      | some (e, [.closeArray]) => some [e]
      | _ => none := by
  rw [readMore?]
  split
  · rename_i heq
    simp only [heq]
  · rename_i heq
    rw [heq]
  · rename_i hcomma hclose
    split
    · exact absurd ‹_› (hcomma _ _)
    · exact absurd ‹_› (hclose _)
    · rfl

/-- Entries are read up to the closing bracket if all their results are finite. -/
theorem readMore?_written (e : Entry) (es : List Entry) :
    readMore? (writtenTokens e ++ writtenMore es ++ [.closeArray]) =
      if (e :: es).all (·.result.isFinite) then some ((e :: es).map reloaded) else none := by
  induction es generalizing e with
  | nil =>
    rw [writtenMore, List.flatMap_nil, List.append_nil, readMore?_eq, read?_writtenTokens]
    cases he : e.result.isFinite <;> simp [he]
  | cons f es ih =>
    have htokens : writtenTokens e ++ writtenMore (f :: es) ++ [.closeArray] =
        writtenTokens e ++ .comma :: (writtenTokens f ++ writtenMore es ++ [.closeArray]) := by
      simp [writtenMore]
    rw [htokens, readMore?_eq, read?_writtenTokens, List.all_cons]
    cases e.result.isFinite with
    | false => rfl
    | true =>
      simp only [if_true, ih, Bool.true_and]
      split <;> rfl

theorem decodeAll?_encodeAll_eq_ite (es : List Entry) :
    decodeAll? (encodeAll es) =
      if es.all (·.result.isFinite) then some (es.map reloaded) else none := by
  rw [decodeAll?_encodeAll_eq]
  cases es with
  | nil => rfl
  | cons e es =>
    rw [writtenAll, readAll?]
    · exact readMore?_written e es
    · exact fun heq => by cases heq

/-- What is stored for entries with finite results is read back with their results reread. -/
theorem decodeAll?_encodeAll (h : ∀ e ∈ es, e.result.isFinite = true) :
    decodeAll? (encodeAll es) = some (es.map reloaded) := by
  rw [decodeAll?_encodeAll_eq_ite, if_pos (List.all_eq_true.2 h)]

/-- A list is read back exactly if all its results are finite. -/
theorem decodeAll?_encodeAll_eq_none_iff :
    decodeAll? (encodeAll es) = none ↔ ∃ e ∈ es, e.result.isFinite = false := by
  rw [decodeAll?_encodeAll_eq_ite, ite_eq_right_iff]
  simp

/-! ### What is read has finite results -/

/-- A result among the fields found so far is finite. -/
def Found.IsFinite (found : Found) : Prop := ∀ v, found.result = some v → v.isFinite = true

theorem isFinite_of_floatOf? {token : Json.Token} {v : Float} (h : floatOf? token = some v) :
    v.isFinite = true := by
  cases token with
  | number n => exact Numeral.isFinite_of_toFloat? h
  | _ => cases h

theorem Found.IsFinite.read? {found : Found} {name : Text} {tokens : List Json.Token}
    {r : Found × List Json.Token} (hf : found.IsFinite) (h : found.read? name tokens = some r) :
    r.1.IsFinite := by
  unfold Found.read? at h
  split at h
  · split at h
    · obtain ⟨t, -, rfl⟩ := Option.map_eq_some_iff.1 h
      exact hf
    · cases h
  split at h
  · split at h
    · obtain ⟨v, hv, rfl⟩ := Option.map_eq_some_iff.1 h
      rintro w ⟨⟩
      exact isFinite_of_floatOf? hv
    · cases h
  split at h
  · split at h
    · obtain ⟨t, -, rfl⟩ := Option.map_eq_some_iff.1 h
      exact hf
    · cases h
  · obtain ⟨rest, -, rfl⟩ := Option.map_eq_some_iff.1 h
    exact hf

theorem isFinite_of_fields? {found : Found} {tokens rest : List Json.Token} (hf : found.IsFinite)
    (h : fields? found tokens = some (e, rest)) : e.result.isFinite = true := by
  fun_induction fields? found tokens with
  | case1 found name value found' rest heq _ ih => exact ih (hf.read? heq) h
  | case2 found name value found' rest heq =>
    obtain ⟨f, he, hpair⟩ := Option.map_eq_some_iff.1 h
    cases hpair
    simp only [Found.entry?, Option.bind_eq_bind, Option.bind_eq_some_iff, Option.pure_def,
      Option.some.injEq] at he
    obtain ⟨t, -, v, hv, time, -, rfl⟩ := he
    exact hf.read? heq v hv
  | case3 => cases h
  | case4 => cases h

theorem isFinite_of_read? {tokens rest : List Json.Token} (h : read? tokens = some (e, rest)) :
    e.result.isFinite = true := by
  unfold read? at h
  split at h
  · exact isFinite_of_fields? (fun v hv => by cases hv) h
  · simp only [Option.bind_eq_bind, Option.bind_eq_some_iff, Option.pure_def,
      Option.some.injEq, Prod.mk.injEq] at h
    obtain ⟨t, -, v, hv, time, -, rfl, -⟩ := h
    exact isFinite_of_floatOf? hv
  · cases h

theorem isFinite_of_readMore? {tokens : List Json.Token} (h : readMore? tokens = some es) :
    ∀ e ∈ es, e.result.isFinite = true := by
  fun_induction readMore? tokens generalizing es with
  | case1 tokens e rest heq _ ih =>
    obtain ⟨more, hmore, rfl⟩ := Option.map_eq_some_iff.1 h
    have hfirst := isFinite_of_read? heq
    exact List.forall_mem_cons.2 ⟨hfirst, ih hmore⟩
  | case2 tokens e heq =>
    obtain rfl := Option.some.inj h
    have hfirst := isFinite_of_read? heq
    exact List.forall_mem_singleton.2 hfirst
  | case3 => cases h

/-- Numbers that are too large for a float are not read, so that no entry has an infinite result. -/
theorem isFinite_of_decodeAll? {bytes : Bytes} (h : decodeAll? bytes = some es) :
    ∀ e ∈ es, e.result.isFinite = true := by
  obtain ⟨tokens, -, hread⟩ := Option.bind_eq_some_iff.1 h
  unfold readAll? at hread
  split at hread
  · obtain rfl := Option.some.inj hread
    exact fun e he => by cases he
  · exact isFinite_of_readMore? hread
  · cases hread

/-! ### Exact reloading -/

theorem reloaded_eq_iff : e.reloaded = e ↔ reread e.result = e.result := by
  obtain ⟨expression, result, time⟩ := e
  simp [reloaded]

theorem map_reloaded_eq_iff : es.map reloaded = es ↔ ∀ e ∈ es, reread e.result = e.result := by
  induction es with
  | nil => simp
  | cons e es ih => rw [List.map_cons, List.cons_eq_cons, reloaded_eq_iff, ih, List.forall_mem_cons]

/-- Entries with finite results come back from storage with their expressions and time stamps. They
come back unchanged if, and only if, scaling the digits of each result comes back to it; that is so
for digits that make up no more than `2 ^ 53` with the point at most 22 places away. -/
theorem decodeAll?_encodeAll_eq_iff (es : List Entry) (h : ∀ e ∈ es, e.result.isFinite = true) :
    decodeAll? (encodeAll es) = some (es.map reloaded) ∧
      (decodeAll? (encodeAll es) = some es ↔ ∀ e ∈ es, reread e.result = e.result) ∧
      ((∀ e ∈ es, (spelled e.result).significand ≤ 2 ^ 53 ∧
        (spelled e.result).exponent.natAbs ≤ 22) → decodeAll? (encodeAll es) = some es) := by
  have hread := decodeAll?_encodeAll h
  have hiff : decodeAll? (encodeAll es) = some es ↔ ∀ e ∈ es, reread e.result = e.result := by
    rw [hread, Option.some.injEq, map_reloaded_eq_iff]
  refine ⟨hread, hiff, fun hshort => hiff.2 fun e he => ?_⟩
  exact reread_eq_of_le (h e he) (hshort e he).1 (hshort e he).2

theorem decodeAll?_encodeAll_two_thirds :
    decodeAll? (encodeAll [⟨['2', '/', '3'], 0.666666666667, -7⟩, ⟨[], -0.0, 0⟩]) =
      some [⟨['2', '/', '3'], 0.666666666667, -7⟩, ⟨[], -0.0, 0⟩] := by
  refine (decodeAll?_encodeAll_eq_iff _ ?_).2.2 ?_
  · decide +kernel
  · decide +kernel

/-- The sixteen digits of `2 ^ 53 - 1` are written with a zero after the point, and the number they
make up is no float. -/
theorem not_forall_decodeAll?_encodeAll : ¬∀ es : List Entry,
    (∀ e ∈ es, e.result.isFinite = true) → decodeAll? (encodeAll es) = some es := by
  intro h
  have hfin : ∀ e ∈ [(⟨['a'], 9007199254740991.0, 0⟩ : Entry)], e.result.isFinite = true := by
    decide +kernel
  have hread := decodeAll?_encodeAll hfin
  rw [h _ hfin, Option.some.injEq, eq_comm, map_reloaded_eq_iff] at hread
  exact absurd (hread _ (List.mem_singleton_self _)) (by decide +kernel)

end KeypadCalc.Entry
