import KeypadCalc.Proofs.Storage.Confinement

/-! Storage in a new directory against storage in memory. The files of a directory hold what a list
of keys with values holds, its locks stand beside them, and before the directory is made it answers
as if it were there and empty. So the two cannot be told apart by what they answer. -/

namespace KeypadCalc

namespace FileTree

variable {t t' : FileTree} {root : Path} {name : Text}

/-- A file can have a name in a directory that is to be made: name and path are not too long, and
the file stands on the way to no directory. -/
structure HasRoom (t : FileTree) (root : Path) (name : Text) : Prop where
  admits : t.limits.admits (root.child name) = true
  admitsName : t.limits.admitsName name = true
  aside : root.place ++ [name] ∉ root.places

instance : Decidable (t.HasRoom root name) :=
  decidable_of_iff (t.limits.admits (root.child name) = true ∧ t.limits.admitsName name = true ∧
      root.place ++ [name] ∉ root.places)
    ⟨fun h => ⟨h.1, h.2.1, h.2.2⟩, fun h => ⟨h.admits, h.admitsName, h.aside⟩⟩

/-- Where a directory is not there yet, it holds no file once it is made. -/
theorem at?_made_of_fresh (hsound : t.Sound) (hfresh : t.at? root.place = none)
    (hroom : t.HasRoom root name) :
    (t.makeDirectories root).2.at? (root.place ++ [name]) = none := by
  have hnone : t.at? (root.place ++ [name]) = none := hsound.at?_append hfresh [name]
  by_contra hthere
  rw [← hnone] at hthere
  exact hroom.aside (at?_makeDirectories_ne hthere).1

/-- The files of the keys in a directory hold the values that a list holds under these keys, and
locks can be taken. This is asked of files with the names in use only. -/
structure Mirrors (used : Text → Prop) (root : Path) (t : FileTree) (values : List (Text × Bytes)) :
    Prop where
  reaches : t.Reaches root
  admits : ∀ name, used name →
    t.limits.admits (root.child name) = true ∧ t.limits.admitsName name = true
  stored : ∀ key, Key.isValid key = true → used (Key.fileName key) →
    t.at? (root.place ++ [Key.fileName key]) = (values.lookup key).map Item.file
  locks : ∀ key, Key.isValid key = true → used (Key.lockName key) →
    t.at? (root.place ++ [Key.lockName key]) ≠ some .directory

namespace Mirrors

variable {used : Text → Prop} {values : List (Text × Bytes)} {key : Text}

section Files

variable (h : Mirrors used root t values) (hkey : Key.isValid key = true)

include h hkey

theorem ne_directory (hname : name ∈ Key.fileNames key) (hused : used name) :
    t.at? (root.place ++ [name]) ≠ some .directory := by
  rcases Key.mem_fileNames.1 hname with rfl | rfl
  · rw [h.stored key hkey hused]
    cases values.lookup key <;> simp
  · exact h.locks key hkey hused

theorem houses (hname : name ∈ Key.fileNames key) (hused : used name) :
    t.Houses root root.place [name] where
  walk := h.reaches.walk
  directory := h.reaches.directory
  inside := List.forall_mem_singleton.2 (Key.inside_fileNames key name hname)
  admits := List.forall_mem_singleton.2 (h.admits name hused).1
  admitsName := List.forall_mem_singleton.2 (h.admits name hused).2
  free := List.forall_mem_singleton.2 (h.ne_directory hkey hname hused)

/-- What is done to the file of a key is done to the value of that key only. -/
theorem rebind {values' : List (Text × Bytes)} (hext : t.Extends t')
    (hothers : ∀ p ≠ root.place ++ [Key.fileName key], t'.at? p = t.at? p)
    (hlookup : ∀ other ≠ key, values'.lookup other = values.lookup other)
    (hself : t'.at? (root.place ++ [Key.fileName key]) = (values'.lookup key).map Item.file) :
    Mirrors used root t' values' := by
  refine ⟨h.reaches.extend hext, by rw [hext.limits]; exact h.admits,
    fun other hother hused => ?_, fun other hother hused => ?_⟩
  · by_cases heq : other = key
    · rw [heq]
      exact hself
    · rw [hothers _ (root.place.file_ne (Key.fileName_injective.ne heq)), hlookup other heq]
      exact h.stored other hother hused
  · rw [hothers _ (root.place.file_ne (Key.lockName_ne_fileName hkey other))]
    exact h.locks other hother hused

end Files

end Mirrors

end FileTree

namespace Storage

open FileTree

variable {t : FileTree} {root : Path} {used : Text → Prop} {values : List (Text × Bytes)}
  {key : Text}

/-! ### One action -/

section Step

variable (h : Mirrors used root t values) (hkey : Key.isValid key = true)

include h hkey

theorem get_of_mirrors (hused : used (Key.fileName key)) :
    (directory t root).get key = (memory values).get key := by
  have hlocate := (h.houses hkey (Key.fileName_mem key) hused).locate (List.mem_singleton_self _)
  rw [get_directory hkey]
  simp only [get, hkey, FileTree.read, hlocate, bind, Except.bind, h.stored key hkey hused]
  cases values.lookup key <;> rfl

theorem set_of_mirrors (hused : used (Key.fileName key)) (value : Bytes) :
    ∃ t' values', (directory t root).set key value = (.ok (), directory t' root) ∧
      (memory values).set key value = (.ok (), memory values') ∧ Mirrors used root t' values' := by
  have hhouses := h.houses hkey (Key.fileName_mem key) hused
  have hname : Key.fileName key ∈ [Key.fileName key] := List.mem_singleton_self _
  refine ⟨t.put (root.place ++ [Key.fileName key]) (.file value),
    (key, value) :: values.filter fun v => v.1 ≠ key, ?_, by simp [set, hkey], ?_⟩
  · simp only [set, hkey, changeIn, hhouses.makeDirectories hname, hhouses.write hname]
    rfl
  · apply h.rebind hkey (extends_put (h.ne_directory hkey (Key.fileName_mem key) hused))
    · exact fun p hp => at?_put_ne hp
    · intro other hother
      rw [List.lookup_cons, beq_eq_false_iff_ne.2 hother, lookup_filter_ne _ hother]
    · rw [at?_put_self (by simp), List.lookup_cons_self]
      rfl

theorem delete_of_mirrors (hused : used (Key.fileName key)) :
    ∃ t' values', (directory t root).delete key = (.ok (), directory t' root) ∧
      (memory values).delete key = (.ok (), memory values') ∧ Mirrors used root t' values' := by
  have hhouses := h.houses hkey (Key.fileName_mem key) hused
  have hlookup : ∀ other ≠ key,
      (values.filter fun v => v.1 ≠ key).lookup other = values.lookup other :=
    fun other hother => lookup_filter_ne _ hother
  rcases hhouses.remove (List.mem_singleton_self _) with ⟨content, -, hremove⟩ | ⟨hnone, hremove⟩
  · refine ⟨_, values.filter fun v => v.1 ≠ key, by simp [delete, hkey, hremove],
      by simp [delete, hkey],
      h.rebind hkey (extends_erase (h.ne_directory hkey (Key.fileName_mem key) hused))
        (fun p hp => at?_erase_ne hp) hlookup ?_⟩
    rw [at?_erase_self (by simp), lookup_filter_self]
    rfl
  · refine ⟨t, values.filter fun v => v.1 ≠ key, by simp [delete, hkey, hremove],
      by simp [delete, hkey], h.rebind hkey (.refl t) (fun p _ => rfl) hlookup ?_⟩
    rw [hnone, lookup_filter_self]
    rfl

theorem lock_of_mirrors (hused : used (Key.lockName key)) :
    ∃ t', (directory t root).lock key = (.ok (), directory t' root) ∧
      (memory values).lock key = (.ok (), memory values) ∧ Mirrors used root t' values := by
  have hhouses := h.houses hkey (Key.lockName_mem key) hused
  have hname : Key.lockName key ∈ [Key.lockName key] := List.mem_singleton_self _
  have hmemory : (memory values).lock key = (.ok (), memory values) := by simp [lock, hkey]
  rw [lock_directory hkey, editIn, changeIn, hhouses.makeDirectories hname]
  simp only [edit, hhouses.locate hname]
  cases hplace : t.at? (root.place ++ [Key.lockName key]) with
  | some item =>
    cases item with
    | directory => exact absurd hplace (h.locks key hkey hused)
    | file content => exact ⟨t, rfl, hmemory, h⟩
  | none =>
    have hext : t.Extends (t.put (root.place ++ [Key.lockName key]) (.file [])) :=
      extends_put (h.locks key hkey hused)
    refine ⟨_, rfl, hmemory, h.reaches.extend hext, h.admits, fun other hother hused' => ?_,
      fun other hother hused' => ?_⟩
    · have hne : Key.fileName other ≠ Key.lockName key := (Key.lockName_ne_fileName hother key).symm
      exact (at?_put_ne (root.place.file_ne hne)).trans (h.stored other hother hused')
    · show (t.put _ _).at? _ ≠ _
      by_cases hplaces : root.place ++ [Key.lockName other] = root.place ++ [Key.lockName key]
      · rw [hplaces, at?_put_self (by simp)]
        simp
      · rw [at?_put_ne hplaces]
        exact h.locks other hother hused'

end Step

/-! ### Runs -/

/-- A directory beside a list: it mirrors the list, or will mirror it, empty, once it is made. -/
inductive Alike (used : Text → Prop) (root : Path) : Storage → Storage → Prop
  | fresh {t : FileTree} (hmade : (t.makeDirectories root).1 = .ok ())
      (h : Mirrors used root (t.makeDirectories root).2 []) :
      Alike used root (directory t root) (memory [])
  | made {t : FileTree} {values : List (Text × Bytes)} (h : Mirrors used root t values) :
      Alike used root (directory t root) (memory values)

/-- A directory and the list it mirrors answer alike, and go on side by side. -/
theorem act_of_mirrors (h : Mirrors used root t values) (a : Action)
    (hkey : Key.isValid a.key = true) (hused : used a.fileName) :
    ((directory t root).act a).1 = ((memory values).act a).1 ∧
      Alike used root ((directory t root).act a).2 ((memory values).act a).2 := by
  cases a with
  | get key => exact ⟨get_of_mirrors h hkey hused, .made h⟩
  | set key value =>
    have hkey : Key.isValid key = true := hkey
    obtain ⟨t', values', hset, hset', h'⟩ := set_of_mirrors h hkey hused value
    rw [act, act, hset, hset']
    exact ⟨rfl, .made h'⟩
  | delete key =>
    have hkey : Key.isValid key = true := hkey
    obtain ⟨t', values', hdelete, hdelete', h'⟩ := delete_of_mirrors h hkey hused
    rw [act, act, hdelete, hdelete']
    exact ⟨rfl, .made h'⟩
  | lock key =>
    have hkey : Key.isValid key = true := hkey
    obtain ⟨t', hlock, hlock', h'⟩ := lock_of_mirrors h hkey hused
    rw [act, act, hlock, hlock']
    exact ⟨rfl, .made h'⟩

/-- A file may be edited as well once the directory has been made. -/
theorem editIn_made (hmade : (t.makeDirectories root).1 = .ok ()) (name : Text)
    (rule : Option Item → Except FileError Edit) :
    editIn t root name rule = editIn (t.makeDirectories root).2 root name rule := by
  have hmake : t.makeDirectories root = (.ok (), (t.makeDirectories root).2) := Prod.ext hmade rfl
  rw [editIn, editIn, changeIn, changeIn, makeDirectories_again hmade (.refl _), hmake]

section Fresh

variable (h : Mirrors used root (t.makeDirectories root).2 []) (hkey : Key.isValid key = true)
  (hused : used (Key.fileName key))

include h hkey hused

/-- Before a directory is made, no file is found in it. -/
theorem locate_of_fresh :
    t.locate (root.child (Key.fileName key)) = .error .missing ∨
      ∃ place, t.locate (root.child (Key.fileName key)) = .ok place ∧ t.at? place = none := by
  have hadmits : t.limits.admits (root.child (Key.fileName key)) = true := by
    rw [← (extends_makeDirectories t root).limits]
    exact (h.admits _ hused).1
  rcases makeDirectories_eq_self_or t root with hself | hmissing
  · rw [hself] at h
    have hhouses := h.houses hkey (Key.fileName_mem key) hused
    exact .inr ⟨_, hhouses.locate (List.mem_singleton_self _), h.stored key hkey hused⟩
  · rw [locate, if_pos hadmits]
    exact .inl (hmissing _)

theorem get_of_fresh : (directory t root).get key = .ok none := by
  rw [get_directory hkey, FileTree.read]
  rcases locate_of_fresh h hkey hused with hlocate | ⟨place, hlocate, hnone⟩
  · rw [hlocate]
    rfl
  · simp only [hlocate, bind, Except.bind, hnone]
    rfl

theorem delete_of_fresh : (directory t root).delete key = (.ok (), directory t root) := by
  rw [delete_directory hkey, edit]
  rcases locate_of_fresh h hkey hused with hlocate | ⟨place, hlocate, hnone⟩
  · rw [hlocate]
  · simp only [hlocate, hnone]
    rfl

end Fresh

theorem act_alike {s s' : Storage} {a : Action} (h : Alike used root s s')
    (hused : Key.isValid a.key = true → used a.fileName) :
    (s.act a).1 = (s'.act a).1 ∧ Alike used root (s.act a).2 (s'.act a).2 := by
  cases hkey : Key.isValid a.key with
  | false =>
    rw [act_of_not_isValid hkey, act_of_not_isValid hkey]
    exact ⟨rfl, h⟩
  | true =>
    have hused := hused hkey
    cases h with
    | made h => exact act_of_mirrors h a hkey hused
    | @fresh t hmade h =>
      -- looking up and taking away leave the directory missing, storing and locking make it first
      cases a with
      | get key =>
        have hkey : Key.isValid key = true := hkey
        have hmemory : (memory []).get key = .ok none := by simp [get, hkey]
        rw [act, act, get_of_fresh h hkey hused, hmemory]
        exact ⟨rfl, .fresh hmade h⟩
      | set key value =>
        have hkey : Key.isValid key = true := hkey
        rw [act, set_directory hkey, editIn_made hmade, ← set_directory hkey]
        exact act_of_mirrors h (.set key value) hkey hused
      | delete key =>
        have hkey : Key.isValid key = true := hkey
        have hmemory : (memory []).delete key = (.ok (), memory []) := by
          simp [delete, hkey]
        rw [act, act, delete_of_fresh h hkey hused, hmemory]
        exact ⟨rfl, .fresh hmade h⟩
      | lock key =>
        have hkey : Key.isValid key = true := hkey
        rw [act, lock_directory hkey, editIn_made hmade, ← lock_directory hkey]
        exact act_of_mirrors h (.lock key) hkey hused

theorem answers_alike {s s' : Storage} {actions : List Action} (h : Alike used root s s')
    (hused : ∀ a ∈ actions, Key.isValid a.key = true → used a.fileName) :
    s.answers actions = s'.answers actions := by
  induction actions generalizing s s' with
  | nil => rfl
  | cons a actions ih =>
    obtain ⟨hanswer, hnext⟩ := act_alike h (hused a (.head _))
    rw [answers, answers, hanswer, ih hnext fun b hb => hused b (.tail a hb)]

/-- A new directory and an empty list give the same answers to whatever is asked of them, also under
keys that are not admitted. It is supposed that the directory is not there yet and can be made, in a
tree whose items all stand in directories, and that it has room for the files that are asked for. No
two admitted keys share a file, and no lock is the file of a key. -/
theorem answers_directory_eq_memory {tree : FileTree} (hsound : tree.Sound)
    (hfresh : tree.at? root.place = none) (hmade : (tree.makeDirectories root).1 = .ok ())
    (actions : List Action)
    (hroom : ∀ a ∈ actions, Key.isValid a.key = true → tree.HasRoom root a.fileName) :
    (directory tree root).answers actions = (memory []).answers actions ∧
      ∀ key other, Key.isValid key = true → Key.isValid other = true →
        (Key.fileName key = Key.fileName other → key = other) ∧
          Key.lockName key ≠ Key.fileName other := by
  refine ⟨?_, fun key other hkey hother =>
    ⟨fun h => Key.fileName_injective h, Key.lockName_ne_fileName hother key⟩⟩
  let used (name : Text) : Prop := ∃ a ∈ actions, Key.isValid a.key = true ∧ a.fileName = name
  have hroom' : ∀ name, used name → tree.HasRoom root name := by
    rintro name ⟨a, ha, hkey, rfl⟩
    exact hroom a ha hkey
  have hext := extends_makeDirectories tree root
  have hmirrors : Mirrors used root (tree.makeDirectories root).2 [] := by
    refine ⟨reaches_of_makeDirectories hmade, fun name hname => ?_, fun key _ hused => ?_,
      fun key _ hused => ?_⟩
    · rw [hext.limits]
      exact ⟨(hroom' name hname).admits, (hroom' name hname).admitsName⟩
    · rw [at?_made_of_fresh hsound hfresh (hroom' _ hused)]
      rfl
    · rw [at?_made_of_fresh hsound hfresh (hroom' _ hused)]
      simp
  exact answers_alike (.fresh hmade hmirrors) fun a ha hkey => ⟨a, ha, hkey, rfl⟩

/-- Keys that look like the names of other keys' files, a lock before anything is stored, a key that
is taken away twice, and a key that leads up, in a directory below one that is missing as well. -/
theorem answers_directory_eq_memory_of_points :
    let tree := FileTree.empty .common
    let root : Path := ⟨[['d'], ['e']], 3⟩
    let a : Text := ['a']
    let dotted : Text := "a.json".toList
    let actions := [.get a, .delete a, .lock a, .get a, .set dotted [1], .set a [2], .lock dotted,
      .get dotted, .set "../a".toList [3], .get "a.lock".toList, .delete a, .delete a, .get a]
    tree.Sound ∧ tree.at? root.place = none ∧ (tree.makeDirectories root).1 = .ok () ∧
      (∀ action ∈ actions, Key.isValid action.key = true → tree.HasRoom root action.fileName) ∧
      (directory tree root).answers actions = (memory []).answers actions ∧
      (memory []).answers actions = [.ok none, .ok none, .ok none, .ok none, .ok none, .ok none,
        .ok none, .ok (some [1]), .error (.invalidKey "../a".toList), .ok none, .ok none, .ok none,
        .ok none] := by
  intro tree root a dotted actions
  have hsound : tree.Sound := sound_empty _
  have hfresh : tree.at? root.place = none := rfl
  have hmade : (tree.makeDirectories root).1 = .ok () := by decide +kernel
  have hroom : ∀ action ∈ actions, Key.isValid action.key = true →
      tree.HasRoom root action.fileName := by decide +kernel
  refine ⟨hsound, hfresh, hmade, hroom, ?_, by decide +kernel⟩
  exact (answers_directory_eq_memory hsound hfresh hmade actions hroom).1

end Storage

end KeypadCalc
