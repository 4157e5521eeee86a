import KeypadCalc.Proofs.Storage.FileTree
import KeypadCalc.Storage

/-! What storage keeps. In memory, and in a directory that is there or can be made, a key keeps the
value it was given last, and taking its lock changes nothing about that. -/

namespace KeypadCalc

/-! ### The files of a key -/

namespace Key

variable {key : Text}

def fileNames (key : Text) : List Text := [fileName key, lockName key]

theorem fileName_mem (key : Text) : fileName key ∈ fileNames key := List.mem_cons_self ..

theorem lockName_mem (key : Text) : lockName key ∈ fileNames key :=
  List.mem_cons_of_mem _ (List.mem_singleton_self _)

/-- A lock is in the way of no value: its name begins with a point. -/
theorem lockName_ne_fileName (h : isValid key = true) (other : Text) :
    lockName other ≠ fileName key := by
  cases key with
  | nil => cases h
  | cons c key =>
    intro heq
    have hc : c = '.' := (List.head_eq_of_cons_eq heq).symm
    subst hc
    cases h

theorem inside_of_length {name : Text} (h : 3 ≤ name.length) : Place.Inside name := by
  refine ⟨?_, ?_, ?_⟩
  all_goals
    rintro rfl
    exact absurd h (by decide)

theorem inside_fileNames (key : Text) : ∀ name ∈ fileNames key, Place.Inside name := by
  refine List.forall_mem_cons.2 ⟨inside_of_length ?_, List.forall_mem_singleton.2 ?_⟩
  · simp [fileName]
  · exact inside_of_length (by simp [lockName])

end Key

/-- A directory in which a key can be kept: it is there or can be made, the names and paths of the
key's files are not too long, and no directory has one of those names. The value of the key has to
be found before missing directories are made as it is found afterwards; that may fail for a path
that leads through a missing directory and up again. -/
structure FileTree.WorksFor (tree : FileTree) (root : Path) (key : Text) : Prop where
  made : (tree.makeDirectories root).1 = .ok ()
  admits : ∀ name ∈ Key.fileNames key, tree.limits.admits (root.child name) = true
  admitsName : ∀ name ∈ Key.fileNames key, tree.limits.admitsName name = true
  free : ∀ name ∈ Key.fileNames key,
    (tree.makeDirectories root).2.item? (root.child name) ≠ some .directory
  found : (tree.makeDirectories root).2.item? (root.child (Key.fileName key)) =
    tree.item? (root.child (Key.fileName key))

def Item.content? : Item → Option Bytes
  | .file content => some content
  | .directory => none

namespace FileTree

variable {tree : FileTree} {root : Path} {place : Place} {key : Text}

/-- Once its directories are made, a directory that works for a key houses the key's files. -/
theorem WorksFor.houses (h : tree.WorksFor root key) :
    ∃ place, (tree.makeDirectories root).2.Houses root place (Key.fileNames key) := by
  have hmake : tree.makeDirectories root = (.ok (), (tree.makeDirectories root).2) :=
    Prod.ext h.made rfl
  obtain ⟨hext, place, hwalk, hplace⟩ := makeDirectories_spec hmake
  have hfree := h.free
  generalize (tree.makeDirectories root).2 = made at *
  have hadmits : ∀ name ∈ Key.fileNames key, made.limits.admits (root.child name) = true := by
    rw [hext.limits]
    exact h.admits
  have hadmitsName : ∀ name ∈ Key.fileNames key, made.limits.admitsName name = true := by
    rw [hext.limits]
    exact h.admitsName
  refine ⟨place, hwalk, hplace, Key.inside_fileNames key, hadmits, hadmitsName, ?_⟩
  intro name hname hdirectory
  refine hfree name hname ?_
  rw [item?, FileTree.locate, if_pos (hadmits name hname), Path.child,
    walk_concat hwalk hplace, if_pos (hadmitsName name hname),
    Place.step_inside (Key.inside_fileNames key name hname)]
  exact hdirectory

theorem Houses.worksFor (h : tree.Houses root place (Key.fileNames key)) :
    tree.WorksFor root key := by
  have hmake := h.makeDirectories (Key.fileName_mem key)
  refine ⟨by rw [hmake], h.admits, h.admitsName, fun name hname => ?_, by rw [hmake]⟩
  rw [hmake, h.item? hname]
  exact h.free name hname

/-- The value of a key is found as early as that in a tree where every item stands in a directory,
if the path of the storage does not lead up. -/
theorem Sound.worksFor (hsound : tree.Sound) (hup : Place.above ∉ root.names)
    (hmade : (tree.makeDirectories root).1 = .ok ())
    (hadmits : ∀ name ∈ Key.fileNames key, tree.limits.admits (root.child name) = true)
    (hadmitsName : ∀ name ∈ Key.fileNames key, tree.limits.admitsName name = true)
    (hfree : ∀ name ∈ Key.fileNames key,
      (tree.makeDirectories root).2.item? (root.child name) ≠ some .directory) :
    tree.WorksFor root key where
  made := hmade
  admits := hadmits
  admitsName := hadmitsName
  free := hfree
  found := item?_of_makeDirectories hsound hup
    (Key.inside_fileNames key _ (Key.fileName_mem key)) (Prod.ext hmade rfl)

end FileTree

namespace Storage

variable {s : Storage} {key : Text}

/-- A storage in which a key can be kept. -/
inductive Works (key : Text) : Storage → Prop
  | memory (values : List (Text × Bytes)) : Works key (.memory values)
  | directory {tree : FileTree} {root : Path} (h : tree.WorksFor root key) :
      Works key (.directory tree root)

/-- A storage in which a key can be kept and whose directory is there. -/
inductive Ready (key : Text) : Storage → Prop
  | memory (values : List (Text × Bytes)) : Ready key (.memory values)
  | directory {tree : FileTree} {root : Path} {place : Place}
      (h : tree.Houses root place (Key.fileNames key)) : Ready key (.directory tree root)

theorem Ready.works (h : s.Ready key) : s.Works key := by
  cases h with
  | memory values => exact .memory values
  | directory h => exact .directory h.worksFor

/-- The value that is found under a key; where there is an error, none is. -/
def found? (s : Storage) (key : Text) : Option Bytes :=
  match s.get key with
  | .ok value => value
  | .error _ => none

theorem found?_memory (hkey : Key.isValid key = true) (values : List (Text × Bytes)) :
    (memory values).found? key = values.lookup key := by
  simp [found?, get, hkey]

theorem found?_directory (hkey : Key.isValid key = true) (tree : FileTree) (root : Path) :
    (directory tree root).found? key =
      (tree.item? (root.child (Key.fileName key))).bind Item.content? := by
  cases hlocate : tree.locate (root.child (Key.fileName key)) with
  | error e =>
    simp only [found?, get, hkey, FileTree.read, FileTree.item?, hlocate, bind, Except.bind]
    cases e <;> rfl
  | ok place =>
    simp only [found?, get, hkey, FileTree.read, FileTree.item?, hlocate, bind, Except.bind]
    rcases tree.at? place with _ | _ | content <;> rfl

/-- Where the directory is there, a key can be looked up. -/
theorem Ready.get_eq (hkey : Key.isValid key = true) (h : s.Ready key) :
    s.get key = .ok (s.found? key) := by
  cases h with
  | memory values => simp [found?, get, hkey]
  | @directory tree root place h =>
    have hfree := h.free _ (Key.fileName_mem key)
    simp only [found?, get, hkey, FileTree.read, h.locate (Key.fileName_mem key), bind, Except.bind]
    cases hat : tree.at? (place ++ [Key.fileName key]) with
    | none => rfl
    | some item =>
      cases item with
      | directory => exact absurd hat hfree
      | file content => rfl

/-- A storage in which a key can be kept can be locked for it; its directory is there then. -/
theorem lock_spec (hkey : Key.isValid key = true) (h : s.Works key) :
    ∃ s', s.lock key = (.ok (), s') ∧ s'.Ready key ∧ s'.found? key = s.found? key := by
  cases h with
  | memory values => exact ⟨.memory values, by simp [lock, hkey], .memory values, rfl⟩
  | @directory tree root h =>
    obtain ⟨place, hhouses⟩ := h.houses
    obtain ⟨changed, htouch, hchanged, hothers⟩ := hhouses.touch (Key.lockName_mem key)
    refine ⟨.directory changed root, ?_, .directory hchanged, ?_⟩
    · have hmake : tree.makeDirectories root = (.ok (), (tree.makeDirectories root).2) :=
        Prod.ext h.made rfl
      simp only [lock, hkey, changeIn]
      rw [hmake]
      simp only [htouch]
      rfl
    · have hne : place ++ [Key.fileName key] ≠ place ++ [Key.lockName key] := fun heq =>
        Key.lockName_ne_fileName hkey key (by simpa using heq.symm)
      rw [found?_directory hkey, found?_directory hkey, hchanged.item? (Key.fileName_mem key),
        hothers _ hne, ← h.found, hhouses.item? (Key.fileName_mem key)]

theorem set_spec (hkey : Key.isValid key = true) (h : s.Ready key) (value : Bytes) :
    ∃ s', s.set key value = (.ok (), s') ∧ s'.Ready key ∧ s'.found? key = some value := by
  cases h with
  | memory values =>
    refine ⟨.memory ((key, value) :: values.filter fun v => v.1 ≠ key), ?_, .memory _, ?_⟩
    · simp [set, hkey]
    · rw [found?_memory hkey, List.lookup_cons_self]
  | @directory tree root place h =>
    have hput : (tree.put (place ++ [Key.fileName key]) (.file value)).Houses root place
        (Key.fileNames key) := h.put (Key.fileName_mem key)
    refine ⟨.directory _ root, ?_, .directory hput, ?_⟩
    · simp only [set, hkey, changeIn, h.makeDirectories (Key.fileName_mem key),
        h.write (Key.fileName_mem key)]
      rfl
    · rw [found?_directory hkey, hput.item? (Key.fileName_mem key),
        FileTree.at?_put_self (by simp)]
      rfl

theorem delete_spec (hkey : Key.isValid key = true) (h : s.Ready key) :
    ∃ s', s.delete key = (.ok (), s') ∧ s'.Ready key ∧ s'.found? key = none := by
  cases h with
  | memory values =>
    refine ⟨.memory (values.filter fun v => v.1 ≠ key), by simp [delete, hkey], .memory _, ?_⟩
    rw [found?_memory hkey, lookup_filter_self]
  | @directory tree root place h =>
    rcases h.remove (Key.fileName_mem key) with ⟨content, -, hremove⟩ | ⟨hnone, hremove⟩
    · have herase := h.erase (Key.fileName_mem key)
      refine ⟨.directory _ root, by simp [delete, hkey, hremove], .directory herase, ?_⟩
      rw [found?_directory hkey, herase.item? (Key.fileName_mem key),
        FileTree.at?_erase_self (by simp)]
      rfl
    · refine ⟨.directory tree root, by simp [delete, hkey, hremove], .directory h, ?_⟩
      rw [found?_directory hkey, h.item? (Key.fileName_mem key), hnone]
      rfl

end Storage

end KeypadCalc
