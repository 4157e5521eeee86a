import KeypadCalc.Proofs.CommandLine
import KeypadCalc.Proofs.History
import KeypadCalc.Proofs.Storage.Confinement

/-! Settings that are admitted can be used, and those that are refused could not. A history with
room for an entry, under a key that no storage complains about, takes an entry in a new directory
and lists it. -/

namespace KeypadCalc

/-! ### Complaints about a key -/

namespace Storage

variable {s : Storage} {a : Action} {key : Text} {err : StorageError}

/-- A failure that has nothing to do with the key. -/
def Unrelated (err : StorageError) : Prop := err = .files ∨ err = .disabled

/-- The answer to a change tells no more than whether it failed. -/
theorem eq_error_of_answer {change : Change}
    (h : (change.map (·.map fun _ => (none : Option Bytes)) id).1 = .error err) :
    change.1 = .error err := by
  obtain ⟨outcome, after⟩ := change
  cases outcome with
  | error e =>
    cases h
    rfl
  | ok => cases h

section Admitted

variable (hkey : Key.isValid a.key = true)

include hkey

theorem act_memory_ne_error (values : List (Text × Bytes)) :
    ((memory values).act a).1 ≠ .error err := by
  cases a with
  | get key | set key value | delete key | lock key =>
    change Key.isValid key = true at hkey
    simp [act, get, set, delete, lock, hkey, Except.map]

theorem act_disabled_eq_error (h : (disabled.act a).1 = .error err) : err = .disabled := by
  cases a with
  | get key | set key value | delete key =>
    change Key.isValid key = true at hkey
    simp only [act, get, set, delete, hkey] at h
    cases h
    rfl
  | lock key =>
    change Key.isValid key = true at hkey
    simp [act, lock, hkey, Except.map] at h

theorem act_directory_eq_error {tree : FileTree} {root : Path}
    (h : ((directory tree root).act a).1 = .error err) : err = .files := by
  cases a with
  | get key | delete key =>
    change Key.isValid key = true at hkey
    simp only [act, get_directory hkey, delete_directory hkey] at h
    split at h <;> cases h
    rfl
  | set key value =>
    change Key.isValid key = true at hkey
    rw [act, set_directory hkey] at h
    exact (editIn_of_error (eq_error_of_answer h)).1
  | lock key =>
    change Key.isValid key = true at hkey
    rw [act, lock_directory hkey] at h
    exact (editIn_of_error (eq_error_of_answer h)).1

theorem unrelated_of_act (h : (s.act a).1 = .error err) : Unrelated err := by
  cases s with
  | memory values => exact absurd h (act_memory_ne_error hkey values)
  | disabled => exact .inr (act_disabled_eq_error hkey h)
  | directory tree root => exact .inl (act_directory_eq_error hkey h)

end Admitted

/-- A storage complains about the key of an action exactly if the key is not admitted, whatever the
storage and whatever the action. -/
theorem act_eq_invalidKey_iff :
    (s.act a).1 = .error (.invalidKey key) ↔ Key.isValid a.key = false ∧ key = a.key := by
  constructor
  · intro h
    cases hkey : Key.isValid a.key with
    | true => rcases unrelated_of_act hkey h with hfiles | hdisabled <;> contradiction
    | false =>
      rw [act_of_not_isValid hkey] at h
      cases h
      exact ⟨rfl, rfl⟩
  · rintro ⟨hkey, rfl⟩
    rw [act_of_not_isValid hkey]

/-- Some storage complains about a key exactly if the key is not admitted. -/
theorem exists_act_eq_invalidKey_iff :
    (∃ (s : Storage) (a : Action) (complaint : Text), a.key = key ∧
      (s.act a).1 = .error (.invalidKey complaint)) ↔ Key.isValid key = false := by
  constructor
  · rintro ⟨s, a, complaint, rfl, herror⟩
    exact (act_eq_invalidKey_iff.1 herror).1
  · intro hkey
    exact ⟨.disabled, .get key, key, rfl, act_eq_invalidKey_iff.2 ⟨hkey, rfl⟩⟩

end Storage

/-! ### New directories -/

namespace FileTree

variable {tree : FileTree} {root : Path} {key name : Text}

/-- A directory that is there or can be made, with names that are not too long for the files of a
key, and with none of these files in it. -/
structure NewFor (tree : FileTree) (root : Path) (key : Text) : Prop where
  made : (tree.makeDirectories root).1 = .ok ()
  admits : ∀ name ∈ Key.fileNames key,
    tree.limits.admits (root.child name) = true ∧ tree.limits.admitsName name = true
  vacant : ∀ name ∈ Key.fileNames key,
    (tree.makeDirectories root).2.at? (root.place ++ [name]) = none

theorem item?_of_vacant (hname : Place.Inside name) (h : tree.at? (root.place ++ [name]) = none) :
    tree.item? (root.child name) = none := by
  unfold item?
  cases hlocate : tree.locate (root.child name) with
  | error => rfl
  | ok place =>
    obtain ⟨-, -, -, rfl⟩ := reaches_of_locate_child hname hlocate
    exact h

/-- Making the directory takes no file away, so there was none before. -/
theorem NewFor.item? (h : tree.NewFor root key) (hname : name ∈ Key.fileNames key) :
    tree.item? (root.child name) = none := by
  refine item?_of_vacant (Key.inside_fileNames key name hname) ?_
  by_contra hthere
  have hchanged : (tree.makeDirectories root).2.at? (root.place ++ [name]) ≠
      tree.at? (root.place ++ [name]) := by
    rw [h.vacant name hname]
    exact Ne.symm hthere
  exact hthere (at?_makeDirectories_ne hchanged).2.1

theorem NewFor.worksFor (h : tree.NewFor root key) : tree.WorksFor root key := by
  have hmade : ∀ name ∈ Key.fileNames key,
      (tree.makeDirectories root).2.item? (root.child name) = none := fun name hname =>
    item?_of_vacant (Key.inside_fileNames key name hname) (h.vacant name hname)
  refine ⟨h.made, fun name hname => (h.admits name hname).1,
    fun name hname => (h.admits name hname).2, fun name hname => ?_, ?_⟩
  · rw [hmade name hname]
    simp
  · rw [hmade _ (Key.fileName_mem key), h.item? (Key.fileName_mem key)]

end FileTree

/-- An entry that is added in a new directory is all that is listed then. -/
theorem History.append_in_new_directory {tree : FileTree} {root : Path} {key : Text} {e : Entry}
    (hkey : Key.isValid key = true) (hnew : tree.NewFor root key) (he : e.result.isFinite = true)
    (capacity : ℕ) :
    let h := History.new (.directory tree root) key capacity
    (h.append e).1 = .ok () ∧ (h.append e).2.entries = [e.reloaded] := by
  intro h
  have hempty : h.entries = [] := by
    have hfound : h.storage.found? h.key = none := by
      have hfound := Storage.found?_directory hkey tree root
      rw [hnew.item? (Key.fileName_mem key)] at hfound
      exact hfound
    rw [entries_eq, hfound]
    rfl
  obtain ⟨st, -, happend, hentries⟩ := append_spec (h := h) ⟨hkey, .directory hnew.worksFor⟩ he
  obtain ⟨n, hn⟩ : ∃ n, h.capacity = n + 1 := Nat.exists_eq_add_one.2 h.capacity_pos
  refine ⟨by rw [happend], ?_⟩
  rw [happend, hentries, hempty, hn, List.rtake_concat_succ, List.rtake_nil]
  rfl

/-! ### Settings -/

namespace Config

variable {t : Text} {c d : Config}

/-- Settings with room for an entry and with a key that storage admits. -/
structure IsUsable (c : Config) : Prop where
  maxEntries_pos : 0 < c.history.maxEntries
  key : Key.isValid c.history.key = true

theorem validate_eq_ok_iff : c.validate = .ok d ↔ d = c ∧ c.IsUsable := by
  unfold validate
  constructor
  · intro h
    split at h
    · cases h
    · rename_i hentries
      split at h
      · rename_i hkey
        cases h
        exact ⟨rfl, Nat.pos_of_ne_zero hentries, hkey⟩
      · cases h
  · rintro ⟨rfl, hentries, hkey⟩
    rw [if_neg hentries.ne', if_pos hkey]

theorem isUsable_default : ({} : Config).IsUsable := ⟨by decide, by decide⟩

theorem validate_eq_noEntries_iff : c.validate = .error .noEntries ↔ c.history.maxEntries = 0 := by
  unfold validate
  split
  · rename_i hentries
    exact iff_of_true rfl hentries
  · rename_i hentries
    split <;> exact iff_of_false nofun hentries

theorem validate_eq_invalidKey_iff {key : Text} :
    c.validate = .error (.invalidKey key) ↔ c.history.maxEntries ≠ 0 ∧
      Key.isValid c.history.key = false ∧ key = c.history.key := by
  unfold validate
  split
  · rename_i hentries
    exact iff_of_false nofun fun h => h.1 hentries
  · rename_i hentries
    split
    · rename_i hkey
      refine iff_of_false nofun fun h => ?_
      rw [h.2.1] at hkey
      cases hkey
    · rename_i hkey
      simp [hentries, hkey, eq_comm]

theorem exists_validate_eq_error_iff : (∃ error, c.validate = .error error) ↔
    c.history.maxEntries = 0 ∨ Key.isValid c.history.key = false := by
  unfold validate
  split
  · rename_i hentries
    exact iff_of_true ⟨_, rfl⟩ (.inl hentries)
  · rename_i hentries
    split
    · rename_i hkey
      simp [hentries, hkey]
    · rename_i hkey
      exact iff_of_true ⟨_, rfl⟩ (.inr (by simpa using hkey))

/-- A document gives the settings that it is decoded to, if they can be used. -/
theorem parse_eq_ok_iff :
    parse t = .ok c ↔ (Toml.parse? t).bind decode? = some c ∧ c.IsUsable := by
  unfold parse
  cases (Toml.parse? t).bind decode? with
  | none => simp
  | some d =>
    rw [validate_eq_ok_iff, Option.some.injEq]
    exact ⟨fun ⟨heq, h⟩ => ⟨heq.symm, heq ▸ h⟩, fun ⟨heq, h⟩ => ⟨heq.symm, heq ▸ h⟩⟩

theorem parse_of_decoded (h : (Toml.parse? t).bind decode? = some c) : parse t = c.validate := by
  rw [parse, h]

theorem IsUsable.capacity_historyIn (h : c.IsUsable) (storage : Storage) :
    (c.historyIn storage).capacity = c.history.maxEntries :=
  max_eq_left h.maxEntries_pos

/-- Settings from a file can be used, and so can those that stand for a missing file. -/
theorem isUsable_of_load {tree : FileTree} {workDir : Place} {file : Text}
    (h : load tree workDir file = .ok c) : c.IsUsable := by
  unfold load at h
  split at h
  · cases h
    exact isUsable_default
  · cases h
  · split at h
    · cases h
    · split at h
      · rename_i hparse
        cases h
        exact (parse_eq_ok_iff.1 hparse).2
      · cases h

end Config

/-! ### The history of a run -/

namespace CommandLine

variable {env : Environment} {tree : FileTree} {inv : Invocation} {task : Task} {c : Config}

theorem isUsable_of_configFor (h : configFor env tree inv = .ok c) : c.IsUsable := by
  unfold configFor at h
  split at h
  · cases h
    exact Config.isUsable_default
  · exact Config.isUsable_of_load h

/-- A run keeps the history that its settings ask for, in a directory, and they can be used. -/
theorem history_of_prepare (h : prepare env tree inv = .ok task) :
    ∃ c root, configFor env tree inv = .ok c ∧ c.IsUsable ∧
      task.session.history = c.historyIn (.directory tree root) := by
  obtain ⟨c, root, hconfig, -, rfl⟩ := prepare_eq_ok h
  exact ⟨c, root, hconfig, isUsable_of_configFor hconfig, rfl⟩

end CommandLine

namespace Config

/-- What a document is accepted or refused for. A history that is kept by accepted settings holds as
many entries as they say, no storage complains about its key, and in a new directory it takes any
finite result and then lists that entry alone, as it is read back: unchanged exactly if scaling the
digits of the result comes back to it. Settings that can be decoded are refused exactly if they
leave room for no entry or if a storage complains about their key, and for the former first. -/
theorem parse_spec (t : Text) :
    (∀ c, parse t = .ok c →
      (∀ env tree inv task, CommandLine.configFor env tree inv = .ok c →
        CommandLine.prepare env tree inv = .ok task →
          ∃ root, task.session.history = c.historyIn (.directory tree root)) ∧
      (∀ storage, (c.historyIn storage).capacity = c.history.maxEntries) ∧
      (∀ (storage : Storage) (a : Storage.Action) key, a.key = c.history.key →
        (storage.act a).1 ≠ .error (.invalidKey key)) ∧
      ∀ (tree : FileTree) root (e : Entry), tree.NewFor root c.history.key →
        e.result.isFinite = true →
          let added := (c.historyIn (.directory tree root)).append e
          added.1 = .ok () ∧ added.2.entries = [e.reloaded] ∧
            (added.2.entries = [e] ↔ Entry.reread e.result = e.result)) ∧
    ∀ c, (Toml.parse? t).bind decode? = some c →
      let refused := ∃ (storage : Storage) (a : Storage.Action) (key : Text),
        a.key = c.history.key ∧ (storage.act a).1 = .error (.invalidKey key)
      ((∃ error, parse t = .error error) ↔ c.history.maxEntries = 0 ∨ refused) ∧
        (parse t = .error .noEntries ↔ c.history.maxEntries = 0) ∧
        ∀ key, parse t = .error (.invalidKey key) ↔
          c.history.maxEntries ≠ 0 ∧ refused ∧ key = c.history.key := by
  refine ⟨fun c hparse => ?_, fun c hdecoded => ?_⟩
  · obtain ⟨-, husable⟩ := parse_eq_ok_iff.1 hparse
    refine ⟨fun env tree inv task hconfig hprepare => ?_, husable.capacity_historyIn,
      fun storage a key ha herror => ?_, fun tree root e hnew he => ?_⟩
    · obtain ⟨d, root, hconfig', -, hhistory⟩ := CommandLine.history_of_prepare hprepare
      rw [hconfig] at hconfig'
      cases hconfig'
      exact ⟨root, hhistory⟩
    · have hkey := (Storage.act_eq_invalidKey_iff.1 herror).1
      rw [ha, husable.key] at hkey
      cases hkey
    · obtain ⟨hok, hentries⟩ :=
        History.append_in_new_directory husable.key hnew he c.history.maxEntries
      refine ⟨hok, hentries, ?_⟩
      rw [← Entry.reloaded_eq_iff, ← @List.singleton_inj _ e.reloaded e]
      exact Eq.congr hentries rfl
  · intro refused
    have hrefused : refused ↔ Key.isValid c.history.key = false :=
      Storage.exists_act_eq_invalidKey_iff
    rw [parse_of_decoded hdecoded, hrefused]
    exact ⟨exists_validate_eq_error_iff, validate_eq_noEntries_iff,
      fun key => validate_eq_invalidKey_iff⟩

/-- A run with a settings file keeps its history as the file says, and the directory, of which
nothing is there yet, takes a third under the key of the file. A key that leads up is refused, but
only after a history without room. -/
theorem parse_spec_of_documents :
    let t := "[history]\nkey = \"my-history_v2\"\nmax_entries = 1".toList
    let c : Config := ⟨{ maxEntries := 1, key := "my-history_v2".toList }, "warn".toList⟩
    let env : CommandLine.Environment := ⟨[], none, none, none⟩
    let tree := (FileTree.empty .common).put ["c".toList] (.file (Utf8.encode t))
    let inv : CommandLine.Invocation := ⟨some "c".toList, some "d/e".toList, false, .history false⟩
    let root : Path := ⟨[['d'], ['e']], 3⟩
    let third : Entry := ⟨['1', '/', '3'], 0.333333333333, 7⟩
    let refused := "history = [true, 0, \"../a\"]".toList
    let d : Config := ⟨{ maxEntries := 0, key := "../a".toList }, "warn".toList⟩
    parse t = .ok c ∧ CommandLine.configFor env tree inv = .ok c ∧
      (∃ task root, CommandLine.prepare env tree inv = .ok task ∧
        task.session.history = c.historyIn (.directory tree root)) ∧
      tree.NewFor root c.history.key ∧ third.result.isFinite = true ∧
      ((c.historyIn (.directory tree root)).append third).2.entries = [third] ∧
      (Toml.parse? refused).bind decode? = some d ∧ parse refused = .error .noEntries := by
  intro t c env tree inv root third refused d
  have hparse : parse t = .ok c := by decide +kernel
  have hconfig : CommandLine.configFor env tree inv = .ok c := by decide +kernel
  have hnew : tree.NewFor root c.history.key :=
    ⟨by decide +kernel, by decide +kernel, by decide +kernel⟩
  have hfinite : third.result.isFinite = true := by decide +kernel
  have hdecoded : (Toml.parse? refused).bind decode? = some d := by decide +kernel
  obtain ⟨task, hprepare⟩ : ∃ task, CommandLine.prepare env tree inv = .ok task := by
    rw [CommandLine.prepare, hconfig]
    exact ⟨_, rfl⟩
  obtain ⟨hrun, -, -, hadded⟩ := (parse_spec t).1 c hparse
  obtain ⟨root', hhistory⟩ := hrun env tree inv task hconfig hprepare
  obtain ⟨-, -, hlisted⟩ := hadded tree root third hnew hfinite
  obtain ⟨-, hentries, -⟩ := (parse_spec refused).2 _ hdecoded
  exact ⟨hparse, hconfig, ⟨task, root', hprepare, hhistory⟩, hnew, hfinite,
    hlisted.2 (by decide +kernel), hdecoded, hentries.2 rfl⟩

/-- The whole number `2 ^ 53 - 1` is listed as the number before it. -/
theorem not_forall_parse_spec :
    ¬∀ (t : Text) (c : Config), parse t = .ok c → ∀ (tree : FileTree) root (e : Entry),
      tree.NewFor root c.history.key → e.result.isFinite = true →
        ((c.historyIn (.directory tree root)).append e).2.entries = [e] := by
  intro h
  let c : Config := ⟨{ maxEntries := 5, key := "my-history_v2".toList }, "warn".toList⟩
  let e : Entry := ⟨"9007199254740991".toList, 9007199254740991.0, 0⟩
  have hparse : parse "[history]\nkey = \"my-history_v2\"\nmax_entries = 5\n".toList = .ok c := by
    decide +kernel
  have hnew : (FileTree.empty .common).NewFor ⟨[['d']], 1⟩ c.history.key :=
    ⟨by decide +kernel, by decide +kernel, by decide +kernel⟩
  have hfinite : e.result.isFinite = true := by decide +kernel
  have hlisted := (History.append_in_new_directory (parse_eq_ok_iff.1 hparse).2.key hnew hfinite
    c.history.maxEntries).2
  have hunchanged := hlisted.symm.trans (h _ c hparse _ _ e hnew hfinite)
  rw [List.singleton_inj, Entry.reloaded_eq_iff] at hunchanged
  exact absurd hunchanged (by decide +kernel)

end Config

end KeypadCalc
