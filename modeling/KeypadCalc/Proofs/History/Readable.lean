import KeypadCalc.Proofs.History

/-! Which histories can be read back. A result that is no finite number is written as `null`, and
no number is read from that, so that one such result makes the whole list unreadable. Adding it is
reported as done all the same. -/

namespace KeypadCalc

namespace Entry

variable {es : List Entry}

/-- A list of entries is read alike from its text over several lines, with or without a line end
after it, and from its compact text: as the same entries, or, exactly if some result is not finite,
as none from either. -/
theorem decodeAll?_writeAll_pretty (es : List Entry) :
    decodeAll? (Utf8.encode (writeAll pretty es)) = decodeAll? (encodeAll es) ∧
      decodeAll? (Utf8.encode (writeAll pretty es ++ ['\n'])) = decodeAll? (encodeAll es) ∧
      (decodeAll? (encodeAll es) = none ↔ ∃ e ∈ es, e.result.isFinite = false) := by
  have hprinted := decodeAll?_writeAll isSpacing_pretty es [] nofun
  rw [List.append_nil] at hprinted
  have hline := decodeAll?_writeAll isSpacing_pretty es ['\n']
    (List.forall_mem_singleton.2 rfl)
  have hcompact := decodeAll?_encodeAll_eq es
  exact ⟨hprinted.trans hcompact.symm, hline.trans hcompact.symm,
    decodeAll?_encodeAll_eq_none_iff⟩

end Entry

namespace History

variable {h : History} {e : Entry}

/-- A history without files works for its key if an entry can be added to it. -/
theorem works_of_append (hmemory : h.storage.tree? = none) (hok : (h.append e).1 = .ok ()) :
    h.Works := by
  obtain ⟨storage, key, capacity, hcapacity⟩ := h
  by_cases hkey : Key.isValid key = true
  · cases storage with
    | memory values => exact ⟨hkey, .memory values⟩
    | disabled => simp [append, locked, withChange, Storage.lock, Storage.set, hkey] at hok
    | directory tree root => cases hmemory
  · simp [append, locked, withChange, Storage.lock, hkey] at hok

theorem rtake_append_singleton (h : History) (e : Entry) :
    (h.entries ++ [e]).rtake h.capacity = h.entries.rtake (h.capacity - 1) ++ [e] := by
  obtain ⟨n, hn⟩ : ∃ n, h.capacity = n + 1 := Nat.exists_eq_add_one.2 h.capacity_pos
  rw [hn, List.rtake_concat_succ, Nat.add_sub_cancel]

/-- An entry with a result that is not finite makes all entries unreadable. -/
theorem entries_append_eq_nil (hw : h.Works) (he : e.result.isFinite = false) :
    (h.append e).2.entries = [] := by
  obtain ⟨s, -, happend, hfound⟩ := append_found hw e
  have hunreadable : Entry.decodeAll? (Entry.encodeAll ((h.entries ++ [e]).rtake h.capacity)) =
      none := by
    rw [Entry.decodeAll?_encodeAll_eq_none_iff, rtake_append_singleton]
    exact ⟨e, by simp, he⟩
  rw [happend, entries_eq, inStorage, hfound, Option.bind_some, hunreadable]
  rfl

/-- An entry that is added without an error stands behind the ones that were read before, of which
the oldest give way to it, exactly if its result is finite and theirs are read again as they are. It
stands there for any finite result, the others being read again; otherwise nothing can be read. -/
theorem entries_append_iff (h : History) (hmemory : h.storage.tree? = none) (e : Entry)
    (hok : (h.append e).1 = .ok ()) :
    let older := h.entries.rtake (h.capacity - 1)
    let after := (h.append e).2.entries
    ((∃ last, after = older ++ [last] ∧ last.expression = e.expression) ↔
        e.result.isFinite = true ∧ ∀ f ∈ older, Entry.reread f.result = f.result) ∧
      (e.result.isFinite = true → after = (older ++ [e]).map Entry.reloaded) ∧
      (e.result.isFinite = false → after = []) := by
  intro older after
  have hw := works_of_append hmemory hok
  have hfinite : e.result.isFinite = true → after = (older ++ [e]).map Entry.reloaded := by
    intro he
    obtain ⟨s, -, happend, hentries⟩ := append_spec hw he
    rw [← rtake_append_singleton, ← hentries]
    exact congrArg (fun outcome => outcome.2.entries) happend
  have hinfinite : e.result.isFinite = false → after = [] := entries_append_eq_nil hw
  refine ⟨⟨?_, ?_⟩, hfinite, hinfinite⟩
  · rintro ⟨last, hafter, -⟩
    cases he : e.result.isFinite with
    | false =>
      rw [hinfinite he] at hafter
      simp at hafter
    | true =>
      refine ⟨rfl, Entry.map_reloaded_eq_iff.1 ?_⟩
      rw [hfinite he, List.map_append] at hafter
      exact (List.append_inj' hafter rfl).1
  · rintro ⟨he, hsame⟩
    refine ⟨e.reloaded, ?_, rfl⟩
    rw [hfinite he, List.map_append, Entry.map_reloaded_eq_iff.2 hsame]
    rfl

/-- A third entry drives out the first one of two. -/
theorem entries_append_iff_of_three :
    let h := new (.memory [(defaultKey, Entry.encodeAll [⟨['1'], 1.0, 1⟩, ⟨['"'], 0.5, 2⟩])])
      defaultKey 2
    h.storage.tree? = none ∧ (h.append ⟨['-', '3'], -3.0, 3⟩).1 = .ok () ∧
      (h.append ⟨['-', '3'], -3.0, 3⟩).2.entries = [⟨['"'], 0.5, 2⟩, ⟨['-', '3'], -3.0, 3⟩] := by
  intro h
  have hok : (h.append ⟨['-', '3'], -3.0, 3⟩).1 = .ok () := rfl
  refine ⟨rfl, hok, ?_⟩
  rw [(entries_append_iff h rfl _ hok).2.1 (by decide +kernel)]
  decide +kernel

/-- An infinite result is added without an error, and nothing can be read after it. -/
theorem not_forall_entries_append : ¬∀ (h : History) (e : Entry), h.storage.tree? = none →
    (h.append e).1 = .ok () → ∃ last,
      (h.append e).2.entries = h.entries.rtake (h.capacity - 1) ++ [last] ∧
        last.expression = e.expression := by
  intro hforall
  obtain ⟨last, hlast, -⟩ := hforall (new (.memory []) defaultKey defaultCapacity)
    ⟨['1', '/', '0'], 1.0 / 0.0, 0⟩ rfl rfl
  rw [entries_append_eq_nil ⟨by decide, .memory []⟩ (by decide +kernel)] at hlast
  simp at hlast

end History

end KeypadCalc
