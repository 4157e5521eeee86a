import KeypadCalc.Proofs.History
import KeypadCalc.Proofs.Storage.Confinement

/-! What is left of something that failed. Storing, taking away, locking, and both changes to a
history can fail at any step in a directory; what they leave then are directories on the way, and an
empty lock file. Values and errors are found as they were. A key under which nothing was found may
give an error afterwards, or a value, but only where a name is too long or the path of the storage
leads up from a directory that was missing. A history that cannot be read is never overwritten. -/

namespace KeypadCalc

namespace FileTree

variable {t after : FileTree} {root : Path} {name : Text} {path : Path}

/-- What a failed attempt leaves of a tree: the tree itself, or the tree with directories made on
the way, or besides with an empty file `name` in the last of them. -/
inductive Leaves (root : Path) (name : Text) (t : FileTree) : FileTree → Prop
  | self : Leaves root name t t
  | made : Leaves root name t (t.makeDirectories root).2
  | file (hmade : (t.makeDirectories root).1 = .ok ())
      (hnone : (t.makeDirectories root).2.at? (root.place ++ [name]) = none) :
      Leaves root name t ((t.makeDirectories root).2.put (root.place ++ [name]) (.file []))

theorem Leaves.changesWithin (h : t.Leaves root name after) :
    t.ChangesWithin root (fun p => p = root.place ++ [name] ∧ t.at? p = none ∧
      after.at? p = some (.file [])) after := by
  cases h with
  | self => exact .refl _ _ t
  | made => exact .makeDirectories t root _
  | file hmade hnone =>
    intro p hp
    by_cases hplace : p = root.place ++ [name]
    · subst hplace
      refine .inr ⟨rfl, ?_, at?_put_self (by simp)⟩
      -- nothing is there once directories are made, so nothing was there before
      by_contra hthere
      rw [← hnone] at hthere
      have hmade := at?_makeDirectories_ne (Ne.symm hthere)
      rw [hnone] at hmade
      cases hmade.2.2
    · rw [at?_put_ne hplace] at hp ⊢
      exact .inl (at?_makeDirectories_ne hp)

theorem write_of_read_refused (h : t.read path = .error .refused) (content : Bytes) :
    ∃ e, t.write path content = .error e := by
  unfold read at h
  unfold write
  cases hlocate : t.locate path with
  | error e => exact ⟨e, rfl⟩
  | ok place =>
    rw [hlocate] at h
    simp only [bind, Except.bind] at h ⊢
    rcases hplace : t.at? place with _ | _ | old
    · rw [hplace] at h
      cases h
    · exact ⟨_, rfl⟩
    · rw [hplace] at h
      cases h

/-- A new file is in the way of no other. -/
theorem Reaches.read_put_ne (h : t.Reaches root) {other : Text}
    (hnone : t.at? (root.place ++ [other]) = none) (hname : Place.Inside name)
    (hne : name ≠ other) (content : Bytes) :
    (t.put (root.place ++ [other]) (.file content)).read (root.child name) =
      t.read (root.child name) := by
  have hext : t.Extends (t.put (root.place ++ [other]) (.file content)) :=
    extends_put (by rw [hnone]; simp)
  unfold read
  rw [h.locate_extends hext hname, h.locate_child hname]
  split
  · simp only [bind, Except.bind, at?_put_ne (root.place.file_ne hne)]
  · rfl

end FileTree

namespace Storage

open FileTree

variable {t after : FileTree} {root : Path} {name key other : Text} {err : StorageError}
  {value : Bytes}

/-! ### What is found afterwards -/

theorem get_of_absent (hkey : Key.isValid key = true)
    (h : t.Absent [] (root.child (Key.fileName key)).names) :
    (directory t root).get key =
      if t.limits.admits (root.child (Key.fileName key)) then .ok none else .error .files := by
  rw [get_directory hkey, read_of_absent h]
  by_cases hadmits : t.limits.admits (root.child (Key.fileName key)) = true
  · rw [if_pos hadmits, if_pos hadmits]
  · rw [if_neg hadmits, if_neg hadmits]

theorem get_of_not_isValid (hkey : Key.isValid key = false) (s : Storage) :
    s.get key = .error (.invalidKey key) := by
  simp only [get, hkey]
  rfl

/-- Making directories does nothing about values and errors that are found before. -/
theorem get_made_of_ne (h : (directory t root).get key ≠ .ok none) :
    (directory (t.makeDirectories root).2 root).get key = (directory t root).get key := by
  cases hkey : Key.isValid key with
  | false => rw [get_of_not_isValid hkey, get_of_not_isValid hkey]
  | true =>
    rcases makeDirectories_eq_self_or t root with hself | hmissing
    · rw [hself]
    · -- the way is missing, so only a path that is too long gives an error, and still does
      have hget := get_of_absent hkey (.inl (hmissing (Key.fileName key)))
      rw [hget] at h ⊢
      split at h
      · contradiction
      · rename_i hadmits
        rw [if_neg hadmits, get_directory hkey, FileTree.read, locate,
          (extends_makeDirectories t root).limits, if_neg hadmits]
        rfl

/-- The file of a key can be looked for: no name on its path is too long, and the path leads up only
from directories that are there. -/
structure Addresses (t : FileTree) (root : Path) (key : Text) : Prop where
  descends : t.Descends [] root.names
  admitsName : ∀ name ∈ root.names ++ [Key.fileName key], t.limits.admitsName name = true

theorem get_made_of_addresses (hsound : t.Sound) (h : Addresses t root key) :
    (directory (t.makeDirectories root).2 root).get key = (directory t root).get key := by
  cases hkey : Key.isValid key with
  | false => rw [get_of_not_isValid hkey, get_of_not_isValid hkey]
  | true =>
    have hinside := Key.inside_fileNames key _ (Key.fileName_mem key)
    rcases makeDirectories_eq_self_or t root with hself | hmissing
    · rw [hself]
    · rcases absent_of_makeDirectories hsound h.descends h.admitsName hinside with hself | habsent
      · rw [hself]
      · rw [get_of_absent hkey habsent, get_of_absent hkey (.inl (hmissing _)),
          (extends_makeDirectories t root).limits]

/-- A failed attempt leaves a storage in which every key is looked up as it was before the attempt
or as it is once directories are made. -/
theorem get_of_leaves (h : t.Leaves root (Key.lockName other) after) (key : Text) :
    (directory after root).get key = (directory t root).get key ∨
      (directory after root).get key = (directory (t.makeDirectories root).2 root).get key := by
  cases h with
  | self => exact .inl rfl
  | made => exact .inr rfl
  | file hmade hnone =>
    right
    cases hkey : Key.isValid key with
    | false => rw [get_of_not_isValid hkey, get_of_not_isValid hkey]
    | true =>
      have hread := (reaches_of_makeDirectories hmade).read_put_ne hnone
        (Key.inside_fileNames key _ (Key.fileName_mem key))
        (Key.lockName_ne_fileName hkey other).symm []
      rw [get_directory hkey, get_directory hkey, hread]

/-! ### What fails, and what it leaves -/

/-- Nothing can be stored under a key for which an error is found. -/
theorem set_of_get_error (h : (directory t root).get key = .error err) (value : Bytes) :
    ((directory t root).set key value).1 = .error err := by
  cases hkey : Key.isValid key with
  | false =>
    rw [get_of_not_isValid hkey] at h
    cases h
    simp only [set, hkey]
    rfl
  | true =>
    have hmade : (directory (t.makeDirectories root).2 root).get key = .error err := by
      rw [get_made_of_ne (by rw [h]; simp), h]
    rw [get_directory hkey] at hmade
    simp only [set, hkey, changeIn]
    cases hmake : t.makeDirectories root with
    | mk outcome made =>
      rw [hmake] at hmade
      split at hmade
      · cases hmade
      · cases hmade
      · rename_i hread
        cases hmade
        obtain ⟨e, hwrite⟩ := write_of_read_refused hread value
        cases outcome with
        | error e => rfl
        | ok =>
          simp only [hwrite]
          rfl

theorem delete_of_error (h : ((directory t root).delete key).1 = .error err) :
    ((directory t root).delete key).2 = directory t root := by
  cases hkey : Key.isValid key with
  | false =>
    simp only [delete, hkey]
    rfl
  | true =>
    rw [delete_directory hkey] at h ⊢
    cases hedit : t.edit (root.child (Key.fileName key)) Edit.removing with
    | error e => cases e <;> rfl
    | ok removed =>
      rw [hedit] at h
      cases h

/-- If they fail, storing and locking leave the tree as it is or with directories made on the
way. -/
theorem change_of_error {change : Change} {rule : Option Item → Except FileError Edit}
    (hedit : Key.isValid key = true → change = editIn t root name rule)
    (hrefused : Key.isValid key = false → change.2 = directory t root)
    (h : change.1 = .error err) :
    change.2 = directory t root ∨ change.2 = directory (t.makeDirectories root).2 root := by
  cases hkey : Key.isValid key with
  | false => exact .inl (hrefused hkey)
  | true =>
    rw [hedit hkey] at h ⊢
    exact .inr (editIn_of_error h).2

theorem set_of_error (h : ((directory t root).set key value).1 = .error err) :
    ((directory t root).set key value).2 = directory t root ∨
      ((directory t root).set key value).2 = directory (t.makeDirectories root).2 root := by
  refine change_of_error (fun hkey => set_directory hkey t root value) (fun hkey => ?_) h
  simp only [set, hkey]
  rfl

theorem lock_of_error (h : ((directory t root).lock key).1 = .error err) :
    ((directory t root).lock key).2 = directory t root ∨
      ((directory t root).lock key).2 = directory (t.makeDirectories root).2 root := by
  refine change_of_error (fun hkey => lock_directory hkey t root) (fun hkey => ?_) h
  simp only [lock, hkey]
  rfl

/-- A lock that is taken leaves no more than a failed attempt may leave, and then all directories on
the way are there. -/
theorem lock_of_ok (h : ((directory t root).lock key).1 = .ok ()) :
    ∃ after, ((directory t root).lock key).2 = directory after root ∧
      t.Leaves root (Key.lockName key) after ∧ after.makeDirectories root = (.ok (), after) := by
  cases hkey : Key.isValid key with
  | false =>
    simp only [lock, hkey] at h
    cases h
  | true =>
    have hinside := Key.inside_fileNames key _ (Key.lockName_mem key)
    rw [lock_directory hkey] at h ⊢
    obtain ⟨hmade, e, hrule, hafter⟩ := editIn_of_ok hinside h
    refine ⟨_, hafter, ?_⟩
    cases hplace : (t.makeDirectories root).2.at? (root.place ++ [Key.lockName key]) with
    | none =>
      rw [hplace] at hrule
      cases hrule
      exact ⟨.file hmade hplace, makeDirectories_again hmade (extends_put (by rw [hplace]; simp))⟩
    | some item =>
      rw [hplace] at hrule
      cases item with
      | directory => cases hrule
      | file content =>
        cases hrule
        exact ⟨.made, makeDirectories_again hmade (.refl _)⟩

/-- If a lock cannot be taken for a key for which an error is found, then by the same error. -/
theorem eq_of_lock_error {err' : StorageError} (h : (directory t root).get key = .error err)
    (hlock : ((directory t root).lock key).1 = .error err') : err' = err := by
  cases hkey : Key.isValid key with
  | false =>
    rw [get_of_not_isValid hkey] at h
    simp only [lock, hkey] at hlock
    cases h
    cases hlock
    rfl
  | true =>
    rw [lock_directory hkey] at hlock
    rw [get_directory hkey] at h
    split at h
    · cases h
    · cases h
    · cases h
      exact (editIn_of_error hlock).1

theorem get_of_leaves_of_ne (h : t.Leaves root (Key.lockName other) after)
    (hget : (directory t root).get key ≠ .ok none) :
    (directory after root).get key = (directory t root).get key := by
  rcases get_of_leaves h key with hself | hmade
  · exact hself
  · exact hmade.trans (get_made_of_ne hget)

end Storage

/-! ### Histories -/

namespace History

open Storage

variable {h : History} {t : FileTree} {root : Path} {err : StorageError}

/-- A failed change under the lock leaves what taking the lock leaves, if the change leaves things
alone where it fails and all directories are there. -/
theorem leaves_of_locked (hstorage : h.storage = directory t root)
    {change : History → Storage.Change}
    (hchange : ∀ after err, after.makeDirectories root = (.ok (), after) →
      (change (h.inStorage (directory after root))).1 = .error err →
        (change (h.inStorage (directory after root))).2 = directory after root)
    (herr : (h.locked change).1 = .error err) :
    ∃ after, (h.locked change).2.storage = directory after root ∧
      t.Leaves root (Key.lockName h.key) after := by
  unfold locked withChange at herr ⊢
  rw [hstorage] at herr ⊢
  cases houtcome : ((directory t root).lock h.key).1 with
  | error e =>
    rcases lock_of_error houtcome with hself | hmade
    · exact ⟨t, hself, .self⟩
    · exact ⟨_, hmade, .made⟩
  | ok =>
    obtain ⟨after, hafter, hleaves, hagain⟩ := lock_of_ok houtcome
    simp only [houtcome, hafter] at herr ⊢
    exact ⟨after, hchange after err hagain herr, hleaves⟩

theorem leaves_of_append (hstorage : h.storage = directory t root) {e : Entry}
    (herr : (h.append e).1 = .error err) :
    ∃ after, (h.append e).2.storage = directory after root ∧
      t.Leaves root (Key.lockName h.key) after := by
  refine leaves_of_locked hstorage (fun after err hagain hset => ?_) herr
  rcases set_of_error hset with hself | hmade
  · exact hself
  · rw [hagain] at hmade
    exact hmade

theorem leaves_of_clear (hstorage : h.storage = directory t root)
    (herr : h.clear.1 = .error err) :
    ∃ after, h.clear.2.storage = directory after root ∧
      t.Leaves root (Key.lockName h.key) after :=
  leaves_of_locked hstorage (fun _ _ _ hdelete => delete_of_error hdelete) herr

/-- Nothing is added to a history that cannot be read: the error that is found is given back. -/
theorem append_of_get_error (hstorage : h.storage = directory t root)
    (hget : (directory t root).get h.key = .error err) (e : Entry) :
    (h.append e).1 = .error err := by
  unfold append locked withChange
  rw [hstorage]
  cases houtcome : ((directory t root).lock h.key).1 with
  | error err' => rw [eq_of_lock_error hget houtcome]
  | ok =>
    obtain ⟨after, hafter, hleaves, -⟩ := lock_of_ok houtcome
    simp only [hafter]
    refine set_of_get_error ?_ _
    rw [get_of_leaves_of_ne hleaves (by rw [hget]; simp), hget]

end History

namespace Storage

open FileTree

/-- What can be tried with a storage: to store a value, to take one away, to take a lock, and to add
to the history under a key or to clear it. -/
inductive Attempt
  | set (key : Text) (value : Bytes)
  | delete (key : Text)
  | lock (key : Text)
  | append (key : Text) (capacity : Nat) (e : Entry)
  | clear (key : Text) (capacity : Nat)

def Attempt.key : Attempt → Text
  | set key _ | delete key | lock key | append key _ _ | clear key _ => key

/-- The outcome of an attempt, with the storage after it. -/
def attempt (s : Storage) : Attempt → Change
  | .set key value => s.set key value
  | .delete key => s.delete key
  | .lock key => s.lock key
  | .append key capacity e => ((History.new s key capacity).append e).map id (·.storage)
  | .clear key capacity => ((History.new s key capacity).clear).map id (·.storage)

theorem leaves_of_attempt {t : FileTree} {root : Path} {a : Attempt} {err : StorageError}
    (h : ((directory t root).attempt a).1 = .error err) :
    ∃ after, ((directory t root).attempt a).2 = directory after root ∧
      t.Leaves root (Key.lockName a.key) after := by
  cases a with
  | set key value =>
    rcases set_of_error h with hself | hmade
    · exact ⟨t, hself, .self⟩
    · exact ⟨_, hmade, .made⟩
  | delete key => exact ⟨t, delete_of_error h, .self⟩
  | lock key =>
    rcases lock_of_error h with hself | hmade
    · exact ⟨t, hself, .self⟩
    · exact ⟨_, hmade, .made⟩
  | append key capacity e => exact History.leaves_of_append rfl h
  | clear key capacity => exact History.leaves_of_clear rfl h

/-- A failed attempt does nothing but that it may leave directories that it made, and an empty lock
file. Each key for which there was a value or an error is looked up as before, and so is each key
that was missing, unless a name is too long or the path leads up from a missing directory. A value
that is put down by way of a draft leaves no draft. What cannot be looked up is not added to: the
attempt gives the error that looking it up gives, before and after. -/
theorem get_of_failed_attempt (tree : FileTree) (root : Path) :
    (∀ a err, ((directory tree root).attempt a).1 = .error err →
      ∃ after, ((directory tree root).attempt a).2 = directory after root ∧
        tree.ChangesWithin root (fun p => p = root.place ++ [Key.lockName a.key] ∧
          tree.at? p = none ∧ after.at? p = some (.file [])) after ∧
        ∀ key, (directory tree root).get key ≠ .ok none ∨ tree.Sound ∧ Addresses tree root key →
          (directory after root).get key = (directory tree root).get key) ∧
      DraftsVanish tree root ∧
      ∀ key capacity e err, (directory tree root).get key = .error err →
        ((directory tree root).attempt (.append key capacity e)).1 = .error err ∧
          ((directory tree root).attempt (.append key capacity e)).2.get key = .error err := by
  have hfailed : ∀ a err, ((directory tree root).attempt a).1 = .error err →
      ∃ after, ((directory tree root).attempt a).2 = directory after root ∧
        tree.ChangesWithin root (fun p => p = root.place ++ [Key.lockName a.key] ∧
          tree.at? p = none ∧ after.at? p = some (.file [])) after ∧
        ∀ key, (directory tree root).get key ≠ .ok none ∨ tree.Sound ∧ Addresses tree root key →
          (directory after root).get key = (directory tree root).get key := by
    intro a err h
    obtain ⟨after, hafter, hleaves⟩ := leaves_of_attempt h
    refine ⟨after, hafter, hleaves.changesWithin, ?_⟩
    rintro key (hget | ⟨hsound, haddresses⟩)
    · exact get_of_leaves_of_ne hleaves hget
    · rcases get_of_leaves hleaves key with hself | hmade
      · exact hself
      · exact hmade.trans (get_made_of_addresses hsound haddresses)
  refine ⟨hfailed, draftsVanish tree root, fun key capacity e err hget => ?_⟩
  have happend : ((directory tree root).attempt (.append key capacity e)).1 = .error err :=
    History.append_of_get_error rfl hget e
  obtain ⟨after, hafter, -, hkept⟩ := hfailed _ err happend
  refine ⟨happend, ?_⟩
  rw [hafter, hkept key (.inl (by rw [hget]; simp)), hget]

/-- A key whose lock would have a name of 256 characters, in a directory that is made in vain, and a
history in whose place a directory stands. -/
theorem get_of_failed_attempt_in_vain :
    let root : Path := ⟨["data".toList], 4⟩
    let long : Text := List.replicate 250 'k'
    let tree := FileTree.empty .common
    let taken := (tree.put root.place .directory).put (root.place ++ [Key.fileName ['a']])
      .directory
    let e : Entry := ⟨['1'], 1, 0⟩
    (tree.Sound ∧ Addresses tree root long ∧
      ((directory tree root).attempt (.append long 20 e)).1 = .error .files ∧
      ∃ after, ((directory tree root).attempt (.append long 20 e)).2 = directory after root ∧
        after.at? root.place = some .directory ∧ (directory after root).get long = .ok none) ∧
      (directory taken root).get ['a'] = .error .files ∧
      ((directory taken root).attempt (.append ['a'] 20 e)).1 = .error .files ∧
      ((directory taken root).attempt (.append ['a'] 20 e)).2.get ['a'] = .error .files := by
  intro root long tree taken e
  have hsound : tree.Sound := sound_empty _
  have haddresses : Addresses tree root long :=
    ⟨descends_of_notMem (by decide +kernel), by decide +kernel⟩
  have herr : ((directory tree root).attempt (.append long 20 e)).1 = .error .files := by
    decide +kernel
  have hget : (directory taken root).get ['a'] = .error .files := by decide +kernel
  obtain ⟨after, hafter, -, hkept⟩ := (get_of_failed_attempt tree root).1 _ _ herr
  have hmade : ((directory tree root).attempt (.append long 20 e)).2.tree?.bind (·.at? root.place) =
      some .directory := by decide +kernel
  rw [hafter] at hmade
  have hnone : (directory tree root).get long = .ok none := by decide +kernel
  refine ⟨⟨hsound, haddresses, herr, after, hafter, hmade, ?_⟩, hget, ?_⟩
  · rw [hkept long (.inr ⟨hsound, haddresses⟩), hnone]
  · exact (get_of_failed_attempt taken root).2.2 ['a'] 20 e .files hget

/-- Where the name of a key's file would have 256 characters, nothing is found as long as the
directory is missing, and an error once a failed attempt has made it. -/
theorem not_forall_get_of_failed_attempt :
    ¬∀ (tree : FileTree) (root : Path) (a : Attempt) (err : StorageError),
      ((directory tree root).attempt a).1 = .error err →
        ∀ key, ((directory tree root).attempt a).2.get key = (directory tree root).get key := by
  intro h
  have herr : ((directory (.empty .common) ⟨["data".toList], 4⟩).attempt
      (.set (List.replicate 251 'k') [120])).1 = .error .files := by decide +kernel
  have hget := h (.empty .common) ⟨["data".toList], 4⟩ _ _ herr (List.replicate 251 'k')
  revert hget
  decide +kernel

end Storage

end KeypadCalc
