import KeypadCalc.History
import KeypadCalc.Proofs.History.Codec
import KeypadCalc.Proofs.Storage
import Mathlib.Data.List.DropRight

/-! Histories under a run of changes. Each change reads what is stored and stores it anew, so that
results may be rounded again, but expressions and time stamps stay: what is listed is the end of a
log that forgets nothing until it is cleared. -/

namespace KeypadCalc

/-- By what entries are told apart in a listing. -/
def Entry.label (e : Entry) : Text × Int64 := (e.expression, e.time)

theorem Entry.label_reloaded (e : Entry) : e.reloaded.label = e.label := rfl

namespace History

/-! ### Ends of lists -/

section Ends

variable {α β : Type}

theorem lastEntries_eq_rtake (n : ℕ) (es : List Entry) : lastEntries n es = es.rtake n := rfl

theorem map_rtake (f : α → β) (l : List α) (n : ℕ) : (l.rtake n).map f = (l.map f).rtake n := by
  rw [List.rtake, List.rtake, List.map_drop, List.length_map]

/-- What has been dropped before an addition would be dropped after it. -/
theorem rtake_rtake_append (l m : List α) (n : ℕ) :
    (l.rtake n ++ m).rtake n = (l ++ m).rtake n := by
  simp only [List.rtake_eq_reverse_take_reverse, List.reverse_append, List.reverse_reverse,
    List.take_append, List.take_take]
  rw [Nat.min_eq_left (Nat.sub_le ..)]

theorem rtake_rtake (l : List α) (n : ℕ) : (l.rtake n).rtake n = l.rtake n := by
  simpa using rtake_rtake_append l [] n

end Ends

/-! ### Changes -/

variable {h : History} {e : Entry}

inductive Action
  | append (e : Entry)
  | clear

/-- Every result that is added is finite. -/
def Action.IsFinite : Action → Prop
  | append e => e.result.isFinite = true
  | clear => True

instance : DecidablePred Action.IsFinite
  | .append e => inferInstanceAs (Decidable (e.result.isFinite = true))
  | .clear => inferInstanceAs (Decidable True)

/-- The outcome of an action, with the history after it. -/
def act (h : History) : Action → Except StorageError Unit × History
  | .append e => h.append e
  | .clear => h.clear

/-- The history after some actions, one by one. -/
def run (h : History) (actions : List Action) : History :=
  actions.foldl (fun h action => (h.act action).2) h

/-- A log after an action: an entry is put at its end, or it is emptied. -/
def record (log : List (Text × Int64)) : Action → List (Text × Int64)
  | .append e => log ++ [e.label]
  | .clear => []

/-- A key of a storage that works for it. -/
def Works (h : History) : Prop := Key.isValid h.key = true ∧ h.storage.Works h.key

theorem entries_eq (h : History) :
    h.entries = ((h.storage.found? h.key).bind Entry.decodeAll?).getD [] := by
  unfold entries Storage.found?
  rcases h.storage.get h.key with _ | _ | bytes <;> rfl

/-- Numbers that are too large are not read, so every listed result is finite. -/
theorem isFinite_of_mem_entries (h : History) : ∀ e ∈ h.entries, e.result.isFinite = true := by
  rw [entries_eq]
  cases hread : (h.storage.found? h.key).bind Entry.decodeAll? with
  | none => exact fun e he => by cases he
  | some es =>
    obtain ⟨bytes, -, hbytes⟩ := Option.bind_eq_some_iff.1 hread
    exact Entry.isFinite_of_decodeAll? hbytes

def inStorage (h : History) (s : Storage) : History := { h with storage := s }

/-- A change under the lock finds the entries that were there before it. -/
theorem locked_spec (hw : h.Works) (change : History → Storage.Change) :
    ∃ s, s.Ready h.key ∧ (h.inStorage s).entries = h.entries ∧
      h.locked change = ((change (h.inStorage s)).1, h.inStorage (change (h.inStorage s)).2) := by
  obtain ⟨s, hlock, hready, hfound⟩ := Storage.lock_spec hw.1 hw.2
  refine ⟨s, hready, ?_, ?_⟩
  · rw [entries_eq, entries_eq, inStorage, hfound]
  · rw [locked, hlock]
    rfl

theorem isFinite_of_mem_kept (h : History) (he : e.result.isFinite = true) :
    ∀ f ∈ (h.entries ++ [e]).rtake h.capacity, f.result.isFinite = true := by
  intro f hf
  rcases List.mem_append.1 (List.mem_of_mem_drop hf) with hold | hnew
  · exact isFinite_of_mem_entries h f hold
  · rwa [List.mem_singleton.1 hnew]

/-- An entry is stored together with those that are read back, as many as the history may hold. -/
theorem append_found (hw : h.Works) (e : Entry) :
    ∃ s, s.Ready h.key ∧ h.append e = (.ok (), h.inStorage s) ∧
      s.found? h.key = some (Entry.encodeAll ((h.entries ++ [e]).rtake h.capacity)) := by
  obtain ⟨locked, hready, hentries, hlocked⟩ := locked_spec hw fun h =>
    h.storage.set h.key (Entry.encodeAll (lastEntries h.capacity (h.entries ++ [e])))
  obtain ⟨s, hset, hready', hfound⟩ := Storage.set_spec hw.1 hready
    (Entry.encodeAll ((h.entries ++ [e]).rtake h.capacity))
  refine ⟨s, hready', ?_, hfound⟩
  rw [append, hlocked, hentries, lastEntries_eq_rtake]
  simp only [inStorage, hset]

/-- An entry is added to those that are read back, and as many are kept as the history may hold. -/
theorem append_spec (hw : h.Works) (he : e.result.isFinite = true) :
    ∃ s, s.Works h.key ∧ h.append e = (.ok (), h.inStorage s) ∧
      (h.inStorage s).entries = ((h.entries ++ [e]).rtake h.capacity).map Entry.reloaded := by
  obtain ⟨s, hready, happend, hfound⟩ := append_found hw e
  refine ⟨s, hready.works, happend, ?_⟩
  rw [entries_eq]
  simp only [inStorage, hfound, Option.bind_some,
    Entry.decodeAll?_encodeAll (isFinite_of_mem_kept h he), Option.getD_some]

theorem clear_found (hw : h.Works) :
    ∃ s, s.Ready h.key ∧ h.clear = (.ok (), h.inStorage s) ∧ s.found? h.key = none := by
  obtain ⟨locked, hready, -, hlocked⟩ := locked_spec hw fun h => h.storage.delete h.key
  obtain ⟨s, hdelete, hready', hfound⟩ := Storage.delete_spec hw.1 hready
  refine ⟨s, hready', ?_, hfound⟩
  rw [clear, hlocked]
  simp only [inStorage, hdelete]

theorem clear_spec (hw : h.Works) :
    ∃ s, s.Works h.key ∧ h.clear = (.ok (), h.inStorage s) ∧ (h.inStorage s).entries = [] := by
  obtain ⟨s, hready, hclear, hfound⟩ := clear_found hw
  refine ⟨s, hready.works, hclear, ?_⟩
  rw [entries_eq]
  simp only [inStorage, hfound, Option.bind_none, Option.getD_none]

/-! ### Runs -/

/-- A working history whose entries end like a log, as far back as the history reaches. -/
structure Follows (h : History) (log : List (Text × Int64)) : Prop where
  works : h.Works
  last : (h.entries.map Entry.label).rtake h.capacity = log.rtake h.capacity

variable {log : List (Text × Int64)} {action : Action} {actions : List Action}

/-- An action succeeds, and then the end of the log is listed and nothing else. -/
theorem Follows.act (hf : h.Follows log) (ha : action.IsFinite) :
    ∃ s, s.Works h.key ∧ h.act action = (.ok (), h.inStorage s) ∧
      (h.inStorage s).entries.map Entry.label = (record log action).rtake h.capacity := by
  cases action with
  | append e =>
    obtain ⟨s, hs, happend, hentries⟩ := append_spec hf.works ha
    refine ⟨s, hs, happend, ?_⟩
    have hlabels : Entry.label ∘ Entry.reloaded = Entry.label := funext Entry.label_reloaded
    calc
      _ = ((h.entries.map Entry.label) ++ [e.label]).rtake h.capacity := by
        rw [hentries, List.map_map, hlabels, map_rtake, List.map_append, List.map_singleton]
      _ = (log ++ [e.label]).rtake h.capacity := by
        rw [← rtake_rtake_append, hf.last, rtake_rtake_append]
  | clear =>
    obtain ⟨s, hs, hclear, hentries⟩ := clear_spec hf.works
    refine ⟨s, hs, hclear, ?_⟩
    rw [hentries, record, List.rtake_nil, List.map_nil]

theorem Follows.run (hf : h.Follows log) (ha : ∀ a ∈ actions, a.IsFinite) :
    ∃ s, h.run actions = h.inStorage s ∧ (h.inStorage s).Follows (actions.foldl record log) := by
  induction actions generalizing h log with
  | nil => exact ⟨h.storage, rfl, hf⟩
  | cons action actions ih =>
    obtain ⟨hfirst, hrest⟩ := List.forall_mem_cons.1 ha
    obtain ⟨s, hs, hact, hlisted⟩ := hf.act hfirst
    have hnext : (h.inStorage s).Follows (record log action) :=
      ⟨⟨hf.works.1, hs⟩, by rw [hlisted]; exact rtake_rtake ..⟩
    obtain ⟨s', hrun, hfollows⟩ := ih hnext hrest
    refine ⟨s', ?_, hfollows⟩
    rw [History.run, List.foldl_cons, hact]
    exact hrun

/-- Whatever a key holds at first, after any actions the next one succeeds, and then the history
lists the end of the log of all of them: the entries read at first with those added since, or those
added since the history was cleared. Right after that it lists nothing. -/
theorem entries_run_concat (h : History) (hkey : Key.isValid h.key = true)
    (hs : h.storage.Works h.key) (actions : List Action) (action : Action)
    (ha : ∀ a ∈ actions ++ [action], a.IsFinite) :
    ((h.run actions).act action).1 = .ok () ∧
      (h.run (actions ++ [action])).entries.map Entry.label =
        ((actions ++ [action]).foldl record (h.entries.map Entry.label)).rtake h.capacity ∧
      (action = .clear → (h.run (actions ++ [action])).entries = []) := by
  obtain ⟨hbefore, hlast⟩ := List.forall_mem_append.1 ha
  have hfollows : h.Follows (h.entries.map Entry.label) := ⟨⟨hkey, hs⟩, rfl⟩
  obtain ⟨s, hrun, hlog⟩ := hfollows.run hbefore
  obtain ⟨s', -, hact, hlisted⟩ := hlog.act (hlast action (List.mem_singleton_self _))
  have hconcat : h.run (actions ++ [action]) = ((h.run actions).act action).2 := by
    rw [History.run, List.foldl_concat]
    rfl
  rw [hconcat, List.foldl_concat, hrun, hact]
  refine ⟨rfl, hlisted, ?_⟩
  rintro rfl
  rw [record, List.rtake_nil] at hlisted
  exact List.map_eq_nil_iff.1 hlisted

/-- In a tree without files, three entries are added to a history that holds two. -/
theorem entries_run_concat_in_new_directory :
    let h := History.new (.directory (.empty .common) ⟨[['d'], ['e']], 4⟩) defaultKey 2
    let actions := [Action.append ⟨['1'], 1.0, 1⟩, .append ⟨['"', '\x00'], 0.5, 2⟩]
    (h.run (actions ++ [.append ⟨['3'], -3.0, 3⟩])).entries.map Entry.label =
      [(['"', '\x00'], 2), (['3'], 3)] := by
  intro h actions
  have hworks : h.storage.Works h.key := .directory <|
    (FileTree.sound_empty _).worksFor (by decide) rfl (by decide) (by decide) (by decide)
  have hfinite : ∀ a ∈ actions ++ [.append ⟨['3'], -3.0, 3⟩], a.IsFinite := by decide +kernel
  exact (entries_run_concat h (by decide) hworks actions _ hfinite).2.1.trans (by decide)

end History

end KeypadCalc
