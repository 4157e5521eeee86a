import KeypadCalc.Proofs.Storage.Draft

/-! What storage in a directory has to do with the rest of a tree of files. Whatever is asked of it,
under whatever keys, it makes directories on the way to its own one, and reads and changes files
that stand in that one and bear the name of an admitted key; it finds the same in all trees that
agree there. What is asked under any other key does nothing at all. -/

namespace KeypadCalc

/-! ### The names of files

No two keys share a file, and the name of an admitted key's file stays one name in any path. -/

namespace Key

variable {key other name : Text}

theorem fileName_injective : Function.Injective fileName :=
  fun _ _ h => List.append_cancel_right h

theorem lockName_injective : Function.Injective lockName :=
  fun _ _ h => List.append_cancel_right (List.tail_eq_of_cons_eq h)

theorem mem_fileNames : name ∈ fileNames key ↔ name = fileName key ∨ name = lockName key := by
  simp [fileNames]

theorem eq_of_mem_fileNames (hkey : isValid key = true) (hother : isValid other = true)
    (h : name ∈ fileNames key) (h' : name ∈ fileNames other) : key = other := by
  rcases mem_fileNames.1 h with rfl | rfl
  · rcases mem_fileNames.1 h' with heq | heq
    · exact fileName_injective heq
    · exact absurd heq.symm (lockName_ne_fileName hkey other)
  · rcases mem_fileNames.1 h' with heq | heq
    · exact absurd heq (lockName_ne_fileName hother key)
    · exact lockName_injective heq

theorem notMem_fileNames (hkey : isValid key = true) (h : name ∈ fileNames key) {c : Char}
    (hc : isKeyChar c = false) : c ∉ name := by
  have hchars : ∀ d ∈ name, isKeyChar d = true := by
    have hvalid : key.all isKeyChar = true := (Bool.and_eq_true_iff.1 hkey).2
    rw [← List.all_eq_true]
    rcases mem_fileNames.1 h with rfl | rfl
    · rw [fileName, List.all_append, hvalid]
      decide
    · rw [lockName, List.cons_append, List.all_cons, List.all_append, hvalid]
      decide
  intro hmem
  rw [hchars c hmem] at hc
  cases hc

end Key

namespace FileTree

variable {t t' : FileTree} {root : Path} {name : Text} {P Q : Place → Prop}
  {rule : Option Item → Except FileError Edit}

/-! ### Where a tree changes -/

/-- Two trees have the same items but at places that `P` holds of, and but for directories on the
way of a path, where nothing stood. -/
def ChangesWithin (root : Path) (P : Place → Prop) (t t' : FileTree) : Prop :=
  ∀ p, t'.at? p ≠ t.at? p →
    p ∈ root.places ∧ t.at? p = none ∧ t'.at? p = some .directory ∨ P p

namespace ChangesWithin

theorem refl (root : Path) (P : Place → Prop) (t : FileTree) : t.ChangesWithin root P t :=
  fun _ h => absurd rfl h

theorem mono (h : t.ChangesWithin root P t') (hPQ : ∀ p, P p → Q p) :
    t.ChangesWithin root Q t' :=
  fun p hp => (h p hp).imp_right (hPQ p)

theorem trans {t₁ t₂ t₃ : FileTree} (h₁ : t₁.ChangesWithin root P t₂)
    (h₂ : t₂.ChangesWithin root P t₃) : t₁.ChangesWithin root P t₃ := by
  intro p hp
  by_cases hfirst : t₂.at? p = t₁.at? p
  · rw [← hfirst] at hp ⊢
    exact h₂ p hp
  · rcases h₁ p hfirst with ⟨hway, hbefore, hmade⟩ | hP
    · by_cases hsecond : t₃.at? p = t₂.at? p
      · exact .inl ⟨hway, hbefore, hsecond.trans hmade⟩
      · rcases h₂ p hsecond with ⟨-, hnone, -⟩ | hP
        · rw [hmade] at hnone
          cases hnone
        · exact .inr hP
    · exact .inr hP

theorem makeDirectories (t : FileTree) (root : Path) (P : Place → Prop) :
    t.ChangesWithin root P (t.makeDirectories root).2 :=
  fun _ hp => .inl (at?_makeDirectories_ne hp)

theorem edited (t : FileTree) (root : Path) (place : Place) (e : Edit) :
    t.ChangesWithin root (· = place) (t.edited place e) :=
  fun _ hp => .inr (by_contra fun hne => hp (at?_edited_ne e hne))

end ChangesWithin

theorem AgreesOn.read_child (h : t.AgreesOn P t') (hway : ∀ p ∈ root.places, P p)
    (hname : Place.Inside name) (hP : P (root.place ++ [name])) :
    t'.read (root.child name) = t.read (root.child name) := by
  unfold read
  rw [h.locate_child hway]
  cases hlocate : t.locate (root.child name) with
  | error e => rfl
  | ok place =>
    obtain ⟨-, -, -, rfl⟩ := reaches_of_locate_child hname hlocate
    simp only [bind, Except.bind, h.items _ hP]

end FileTree

namespace Storage

/-! ### Actions -/

/-- What can be asked of a storage. -/
inductive Action
  | get (key : Text)
  | set (key : Text) (value : Bytes)
  | delete (key : Text)
  | lock (key : Text)

namespace Action

def key : Action → Text
  | get key | set key _ | delete key | lock key => key

/-- The name of the file that an action is about. -/
def fileName : Action → Text
  | get key | set key _ | delete key => Key.fileName key
  | lock key => Key.lockName key

theorem fileName_mem (a : Action) : a.fileName ∈ Key.fileNames a.key := by
  cases a with
  | lock key => exact Key.lockName_mem key
  | get key => exact Key.fileName_mem key
  | set key value => exact Key.fileName_mem key
  | delete key => exact Key.fileName_mem key

theorem inside_fileName (a : Action) : Place.Inside a.fileName :=
  Key.inside_fileNames a.key _ a.fileName_mem

end Action

/-- What an action answers, with the storage after it. A value is answered to `get` only. -/
def act (s : Storage) : Action → Except StorageError (Option Bytes) × Storage
  | .get key => (s.get key, s)
  | .set key value => (s.set key value).map (·.map fun _ => none) id
  | .delete key => (s.delete key).map (·.map fun _ => none) id
  | .lock key => (s.lock key).map (·.map fun _ => none) id

def run (s : Storage) (actions : List Action) : Storage :=
  actions.foldl (fun s a => (s.act a).2) s

/-- What a storage answers, action by action. -/
def answers (s : Storage) : List Action → List (Except StorageError (Option Bytes))
  | [] => []
  | a :: actions => (s.act a).1 :: (s.act a).2.answers actions

theorem act_of_not_isValid {a : Action} (h : Key.isValid a.key = false) (s : Storage) :
    s.act a = (.error (.invalidKey a.key), s) := by
  cases a with
  | get key =>
    change Key.isValid key = false at h
    simp only [act, get, h]
    rfl
  | set key value =>
    change Key.isValid key = false at h
    simp only [act, set, h]
    rfl
  | delete key =>
    change Key.isValid key = false at h
    simp only [act, delete, h]
    rfl
  | lock key =>
    change Key.isValid key = false at h
    simp only [act, lock, h]
    rfl

/-! ### The actions on a directory as edits -/

section Directory

variable {t t' : FileTree} {root : Path} {name : Text} {a : Action} {P : Place → Prop}
  {rule : Option Item → Except FileError Edit} {key : Text} {err : StorageError}

/-- Makes the storage directory and then edits a file in it. -/
def editIn (tree : FileTree) (root : Path) (name : Text)
    (rule : Option Item → Except FileError Edit) : Change :=
  changeIn tree root fun made => made.edit (root.child name) rule

theorem set_directory (hkey : Key.isValid key = true) (t : FileTree) (root : Path)
    (value : Bytes) :
    (directory t root).set key value =
      editIn t root (Key.fileName key) (Edit.writing value) := by
  simp only [set, hkey, FileTree.write_eq_edit]
  rfl

theorem lock_directory (hkey : Key.isValid key = true) (t : FileTree) (root : Path) :
    (directory t root).lock key = editIn t root (Key.lockName key) Edit.touching := by
  simp only [lock, hkey, FileTree.touch_eq_edit]
  rfl

theorem get_directory (hkey : Key.isValid key = true) (t : FileTree) (root : Path) :
    (directory t root).get key =
      match t.read (root.child (Key.fileName key)) with
      | .ok content => .ok (some content)
      | .error .missing => .ok none
      | .error .refused => .error .files := by
  simp only [get, hkey]
  rfl

theorem delete_directory (hkey : Key.isValid key = true) (t : FileTree) (root : Path) :
    (directory t root).delete key =
      match t.edit (root.child (Key.fileName key)) Edit.removing with
      | .ok removed => (.ok (), directory removed root)
      | .error .missing => (.ok (), directory t root)
      | .error .refused => (.error .files, directory t root) := by
  simp only [delete, hkey, FileTree.remove_eq_edit]
  rfl

theorem editIn_of_error (h : (editIn t root name rule).1 = .error err) :
    err = .files ∧ (editIn t root name rule).2 = directory (t.makeDirectories root).2 root := by
  unfold editIn changeIn at h ⊢
  cases hmake : t.makeDirectories root with
  | mk outcome made =>
    rw [hmake] at h
    cases outcome with
    | error e =>
      cases h
      exact ⟨rfl, rfl⟩
    | ok =>
      cases hedit : made.edit (root.child name) rule with
      | error e =>
        simp only [hedit] at h ⊢
        cases h
        exact ⟨rfl, trivial⟩
      | ok changed =>
        simp only [hedit] at h
        cases h

theorem editIn_of_ok (hname : Place.Inside name) (h : (editIn t root name rule).1 = .ok ()) :
    (t.makeDirectories root).1 = .ok () ∧
      ∃ e, rule ((t.makeDirectories root).2.at? (root.place ++ [name])) = .ok e ∧
        (editIn t root name rule).2 =
          directory ((t.makeDirectories root).2.edited (root.place ++ [name]) e) root := by
  unfold editIn changeIn at h ⊢
  cases hmake : t.makeDirectories root with
  | mk outcome made =>
    rw [hmake] at h
    cases outcome with
    | error e => cases h
    | ok =>
      cases hedit : made.edit (root.child name) rule with
      | error e =>
        simp only [hedit] at h
        cases h
      | ok changed =>
        obtain ⟨-, e, hrule, rfl⟩ := FileTree.edit_child_eq_ok hname hedit
        exact ⟨rfl, e, hrule, by simp only [hedit]⟩

theorem editIn_snd (t : FileTree) (root : Path) (hname : Place.Inside name)
    (rule : Option Item → Except FileError Edit) :
    ∃ e, (editIn t root name rule).2 =
      directory ((t.makeDirectories root).2.edited (root.place ++ [name]) e) root := by
  cases houtcome : (editIn t root name rule).1 with
  | error err => exact ⟨.keep, (editIn_of_error houtcome).2⟩
  | ok =>
    obtain ⟨-, e, -, he⟩ := editIn_of_ok hname houtcome
    exact ⟨e, he⟩

/-- Under an admitted key an action edits the file it is about, and may make directories first. -/
theorem act_directory (hkey : Key.isValid a.key = true) (t : FileTree) (root : Path) :
    ∃ before e, ((directory t root).act a).2 =
        directory (before.edited (root.place ++ [a.fileName]) e) root ∧
      (before = t ∨ before = (t.makeDirectories root).2) := by
  have hinside := a.inside_fileName
  cases a with
  | get key => exact ⟨t, .keep, rfl, .inl rfl⟩
  | set key value =>
    obtain ⟨e, he⟩ := editIn_snd t root hinside (Edit.writing value)
    refine ⟨_, e, ?_, .inr rfl⟩
    rw [act, set_directory (show Key.isValid key = true from hkey)]
    exact he
  | delete key =>
    rw [act, delete_directory (show Key.isValid key = true from hkey)]
    cases hedit : t.edit (root.child (Key.fileName key)) Edit.removing with
    | error e =>
      refine ⟨t, .keep, ?_, .inl rfl⟩
      cases e <;> rfl
    | ok removed =>
      obtain ⟨-, e, -, rfl⟩ := FileTree.edit_child_eq_ok hinside hedit
      exact ⟨t, e, rfl, .inl rfl⟩
  | lock key =>
    obtain ⟨e, he⟩ := editIn_snd t root hinside Edit.touching
    refine ⟨_, e, ?_, .inr rfl⟩
    rw [act, lock_directory (show Key.isValid key = true from hkey)]
    exact he

/-- A place that is the place of the file of one of some actions, under an admitted key. -/
def FileOf (root : Path) (actions : List Action) (p : Place) : Prop :=
  ∃ a ∈ actions, Key.isValid a.key = true ∧ p = root.place ++ [a.fileName]

theorem changesWithin_act (t : FileTree) (root : Path) (a : Action) :
    ∃ after, ((directory t root).act a).2 = directory after root ∧
      t.ChangesWithin root (FileOf root [a]) after := by
  cases hkey : Key.isValid a.key with
  | false =>
    rw [act_of_not_isValid hkey]
    exact ⟨t, rfl, .refl _ _ t⟩
  | true =>
    obtain ⟨before, e, hact, hbefore⟩ := act_directory hkey t root
    refine ⟨_, hact, ?_⟩
    have hmade : t.ChangesWithin root (· = root.place ++ [a.fileName]) before := by
      rcases hbefore with rfl | rfl
      · exact .refl _ _ _
      · exact .makeDirectories t root _
    exact (hmade.trans (.edited before root _ e)).mono fun p hp => ⟨a, .head _, hkey, hp⟩

/-- The places that actions look at: the directories on the way, and the files of those actions. -/
def Confines (root : Path) (actions : List Action) (p : Place) : Prop :=
  p ∈ root.places ∨ FileOf root actions p

section Agreement

variable (h : t.AgreesOn P t') (hway : ∀ p ∈ root.places, P p)

include h hway

theorem editIn_of_agreesOn (hname : Place.Inside name) (hP : P (root.place ++ [name]))
    (rule : Option Item → Except FileError Edit) :
    (editIn t' root name rule).1 = (editIn t root name rule).1 ∧
      ∃ u u', (editIn t root name rule).2 = directory u root ∧
        (editIn t' root name rule).2 = directory u' root ∧ u.AgreesOn P u' := by
  obtain ⟨houtcome, hmade⟩ := h.makeDirectories hway
  unfold editIn changeIn
  cases hmake : t.makeDirectories root with
  | mk outcome made =>
    cases hmake' : t'.makeDirectories root with
    | mk outcome' made' =>
      rw [hmake, hmake'] at houtcome hmade
      obtain rfl : outcome' = outcome := houtcome
      cases outcome' with
      | error e => exact ⟨rfl, made, made', rfl, rfl, hmade⟩
      | ok =>
        rcases hmade.edit_child hway hname hP rule with
          ⟨e, he, he'⟩ | ⟨u, u', hu, hu', hagree⟩
        · simp only [he, he']
          exact ⟨trivial, made, made', rfl, rfl, hmade⟩
        · simp only [hu, hu']
          exact ⟨trivial, u, u', rfl, rfl, hagree⟩

theorem act_of_agreesOn (hP : Key.isValid a.key = true → P (root.place ++ [a.fileName])) :
    ((directory t' root).act a).1 = ((directory t root).act a).1 ∧
      ∃ u u', ((directory t root).act a).2 = directory u root ∧
        ((directory t' root).act a).2 = directory u' root ∧ u.AgreesOn P u' := by
  cases hkey : Key.isValid a.key with
  | false =>
    rw [act_of_not_isValid hkey, act_of_not_isValid hkey]
    exact ⟨rfl, t, t', rfl, rfl, h⟩
  | true =>
    have hinside := a.inside_fileName
    have hP := hP hkey
    cases a with
    | get key =>
      have hkey : Key.isValid key = true := hkey
      have hread : t'.read (root.child (Key.fileName key)) =
          t.read (root.child (Key.fileName key)) := h.read_child hway hinside hP
      rw [act, act, get_directory hkey, get_directory hkey, hread]
      exact ⟨rfl, t, t', rfl, rfl, h⟩
    | set key value =>
      have hkey : Key.isValid key = true := hkey
      obtain ⟨houtcome, hafter⟩ := editIn_of_agreesOn h hway hinside hP (Edit.writing value)
      rw [act, act, set_directory hkey, set_directory hkey]
      exact ⟨congrArg (Except.map fun _ => none) houtcome, hafter⟩
    | delete key =>
      have hkey : Key.isValid key = true := hkey
      rw [act, act, delete_directory hkey, delete_directory hkey]
      rcases h.edit_child hway hinside hP Edit.removing with
        ⟨e, he, he'⟩ | ⟨u, u', hu, hu', hagree⟩
      · rw [show t.edit (root.child (Key.fileName key)) _ = _ from he,
          show t'.edit (root.child (Key.fileName key)) _ = _ from he']
        cases e <;> exact ⟨rfl, t, t', rfl, rfl, h⟩
      · rw [show t.edit (root.child (Key.fileName key)) _ = _ from hu,
          show t'.edit (root.child (Key.fileName key)) _ = _ from hu']
        exact ⟨rfl, u, u', rfl, rfl, hagree⟩
    | lock key =>
      have hkey : Key.isValid key = true := hkey
      obtain ⟨houtcome, hafter⟩ := editIn_of_agreesOn h hway hinside hP Edit.touching
      rw [act, act, lock_directory hkey, lock_directory hkey]
      exact ⟨congrArg (Except.map fun _ => none) houtcome, hafter⟩

end Agreement

/-! ### Runs -/

theorem changesWithin_run (t : FileTree) (root : Path) (actions : List Action) :
    ∃ after, (directory t root).run actions = directory after root ∧
      t.ChangesWithin root (FileOf root actions) after := by
  induction actions generalizing t with
  | nil => exact ⟨t, rfl, .refl _ _ t⟩
  | cons a actions ih =>
    obtain ⟨next, hnext, hfirst⟩ := changesWithin_act t root a
    obtain ⟨after, hafter, hrest⟩ := ih next
    refine ⟨after, ?_, ?_⟩
    · rw [run, List.foldl_cons, hnext]
      exact hafter
    · refine (hfirst.mono ?_).trans (hrest.mono ?_)
      · rintro p ⟨b, hb, hp⟩
        exact ⟨b, List.mem_cons.2 (.inl (List.mem_singleton.1 hb)), hp⟩
      · rintro p ⟨b, hb, hp⟩
        exact ⟨b, .tail a hb, hp⟩

theorem run_of_agreesOn {actions : List Action} (h : t.AgreesOn P t')
    (hway : ∀ p ∈ root.places, P p) (hP : ∀ p, FileOf root actions p → P p) :
    (directory t' root).answers actions = (directory t root).answers actions ∧
      ∃ u u', (directory t root).run actions = directory u root ∧
        (directory t' root).run actions = directory u' root ∧ u.AgreesOn P u' := by
  induction actions generalizing t t' with
  | nil => exact ⟨rfl, t, t', rfl, rfl, h⟩
  | cons a actions ih =>
    obtain ⟨hanswer, v, v', hv, hv', hagree⟩ :=
      act_of_agreesOn h hway fun hkey => hP _ ⟨a, .head _, hkey, rfl⟩
    obtain ⟨hanswers, hrun⟩ := ih hagree fun p ⟨b, hb, hp⟩ => hP p ⟨b, .tail a hb, hp⟩
    simp only [answers, run, List.foldl_cons, hanswer, hv, hv']
    exact ⟨congrArg _ hanswers, hrun⟩

end Directory

/-- Storage in a directory keeps to it. Whatever it is asked, nothing else becomes of a tree than
that directories are made on the way to it, where nothing stood, and that files of admitted keys
change in it. All trees that agree on the way and at those files answer alike and go on to agree
there, so that nothing else is read. Under a key that is not admitted every action is refused and
leaves the storage as it is. A value may be put down by way of a draft: that changes no answer, and
no draft is left. The names of an admitted key's files lead into the directory, hold neither a slash
nor the null character, and are no names of another key's files. -/
theorem confined_run (tree : FileTree) (root : Path) (actions : List Action) :
    ∃ after, (directory tree root).run actions = directory after root ∧
      tree.ChangesWithin root (FileOf root actions) after ∧
      (∀ other, tree.AgreesOn (Confines root actions) other →
        (directory other root).answers actions = (directory tree root).answers actions ∧
          ∃ after', (directory other root).run actions = directory after' root ∧
            after.AgreesOn (Confines root actions) after') ∧
      (∀ a : Action, Key.isValid a.key = false →
        (directory after root).act a = (.error (.invalidKey a.key), directory after root)) ∧
      DraftsVanish after root ∧
      ∀ key, Key.isValid key = true → ∀ name ∈ Key.fileNames key,
        (root.child name).place = root.place ++ [name] ∧ '/' ∉ name ∧ '\x00' ∉ name ∧
          ∀ other, Key.isValid other = true → name ∈ Key.fileNames other → other = key := by
  obtain ⟨after, hrun, hchanges⟩ := changesWithin_run tree root actions
  refine ⟨after, hrun, hchanges, fun other hother => ?_, fun a ha => act_of_not_isValid ha _,
    draftsVanish after root,
    fun key hkey name hname => ⟨?_, ?_, ?_, fun other hother hmem => ?_⟩⟩
  · have hfiles : ∀ p, FileOf root actions p → Confines root actions p := fun p hp => .inr hp
    obtain ⟨hanswers, u, u', hu, hu', hagree⟩ :=
      run_of_agreesOn hother (fun p hp => .inl hp) hfiles
    obtain rfl : u = after := by
      rw [hrun] at hu
      cases hu
      rfl
    exact ⟨hanswers, u', hu', hagree⟩
  · exact Path.place_child root (Key.inside_fileNames key name hname)
  · exact Key.notMem_fileNames hkey hname (by decide)
  · exact Key.notMem_fileNames hkey hname (by decide)
  · exact Key.eq_of_mem_fileNames hother hkey hmem hname

/-- The key `../x` is refused in a directory `d`, and the file `x.json` beside that directory stays
as it was. -/
theorem confined_run_beside_escape :
    let tree := (FileTree.empty .common).put [['x', '.', 'j', 's', 'o', 'n']] (.file [1])
    let root : Path := ⟨[['d']], 1⟩
    let escape := ['.', '.', '/', 'x']
    let actions := [Action.set escape [2], .delete escape, .lock ['a'], .set ['a'] [3]]
    (directory tree root).answers actions =
        [.error (.invalidKey escape), .error (.invalidKey escape), .ok none, .ok none] ∧
      ∃ after, (directory tree root).run actions = directory after root ∧
        after.at? [Key.fileName ['x']] = some (.file [1]) ∧
        after.at? [['d'], Key.fileName ['a']] = some (.file [3]) := by
  intro tree root escape actions
  refine ⟨by decide +kernel, ?_⟩
  obtain ⟨after, hrun, hchanges, -⟩ := confined_run tree root actions
  refine ⟨after, hrun, ?_, ?_⟩
  · by_contra hne
    rcases hchanges _ hne with ⟨-, hnone, -⟩ | ⟨a, -, -, hplace⟩
    · cases hnone
    · have hlength := congrArg List.length hplace
      rw [List.length_append, show root.place.length = 1 from rfl] at hlength
      cases hlength
  · have hkept : ((directory tree root).run actions).tree?.bind
        (·.at? [['d'], Key.fileName ['a']]) = some (.file [3]) := by decide +kernel
    rw [hrun] at hkept
    exact hkept

end Storage

end KeypadCalc
