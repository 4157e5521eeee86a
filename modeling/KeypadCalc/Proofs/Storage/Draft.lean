import KeypadCalc.Proofs.Storage
import KeypadCalc.Proofs.Storage.Editing

/-! How a value is put down without ever being seen half written: a draft of its file is written
beside it and renamed over it, and a draft that cannot be renamed is taken away. Whatever free name
the draft is given, this comes to the same as writing the file at once, and no draft is left. -/

namespace KeypadCalc

namespace FileTree

/-- Moves a file. It takes the place of another file, but not that of a directory. -/
def rename (t : FileTree) (source target : Path) : Except FileError FileTree := do
  let start ← t.locate source
  let goal ← t.locate target
  match t.at? start, t.at? goal with
  | some (.file _), some .directory => throw .refused
  | some (.file content), _ => return (t.erase start).put goal (.file content)
  | some .directory, _ => throw .refused
  | none, _ => throw .missing

/-- Writes a file by way of a draft. -/
def writeByDraft (t : FileTree) (draft path : Path) (content : Bytes) :
    Except FileError Unit × FileTree :=
  match t.write draft content with
  | .error e => (.error e, t)
  | .ok drafted =>
    match drafted.rename draft path with
    | .ok renamed => (.ok (), renamed)
    | .error e => (.error e, (drafted.remove draft).toOption.getD drafted)

theorem eq_put_of_write {t t' : FileTree} {root : Path} {name : Text} {content : Bytes}
    (hname : Place.Inside name) (h : t.write (root.child name) content = .ok t') :
    t' = t.put (root.place ++ [name]) (.file content) := by
  rw [write_eq_edit] at h
  obtain ⟨-, e, hrule, rfl⟩ := edit_child_eq_ok hname h
  cases hplace : t.at? (root.place ++ [name]) with
  | none =>
    rw [hplace] at hrule
    cases hrule
    rfl
  | some item =>
    rw [hplace] at hrule
    cases item with
    | directory => cases hrule
    | file old =>
      cases hrule
      rfl

/-- A name that a draft can be given in a directory: nothing has it there, and neither it nor its
path is too long. -/
structure FreeName (t : FileTree) (root : Path) (name : Text) : Prop where
  inside : Place.Inside name
  admits : t.limits.admits (root.child name) = true
  admitsName : t.limits.admitsName name = true
  free : t.at? (root.place ++ [name]) = none

/-- Two trees hold the same everywhere. -/
abbrev Same (t t' : FileTree) : Prop := t.AgreesOn (fun _ => True) t'

variable {t t' : FileTree} {root : Path} {place : Place} {draft name : Text} {content : Bytes}

theorem same_erase_put (h : t.at? place = none) (item : Item) :
    t.Same ((t.put place item).erase place) := by
  refine ⟨rfl, fun p _ => ?_⟩
  by_cases hp : p = place
  · rw [hp, h, at?_erase_self (ne_nil_of_at?_eq_none h)]
  · rw [at?_erase_ne hp, at?_put_ne hp]

theorem Reaches.locate_child (h : t.Reaches root) (hname : Place.Inside name) :
    t.locate (root.child name) =
      if t.limits.admits (root.child name) ∧ t.limits.admitsName name then
        .ok (root.place ++ [name])
      else .error .refused := by
  unfold locate
  rw [h.walk_child hname]
  split
  · rename_i hadmits
    simp [hadmits]
  · rename_i hadmits
    simp [hadmits]

theorem Reaches.locate_extends (h : t.Reaches root) (hext : t.Extends t')
    (hname : Place.Inside name) : t'.locate (root.child name) = t.locate (root.child name) := by
  rw [(h.extend hext).locate_child hname, h.locate_child hname, hext.limits]

/-- The tree with a draft in the directory of a path. -/
def drafted (t : FileTree) (root : Path) (draft : Text) (content : Bytes) : FileTree :=
  t.put (root.place ++ [draft]) (.file content)

section Drafted

variable (hreaches : t.Reaches root) (hdraft : t.FreeName root draft) (content : Bytes)

include hdraft

theorem same_erase_drafted :
    t.Same ((t.drafted root draft content).erase (root.place ++ [draft])) :=
  same_erase_put hdraft.free _

theorem at?_drafted_self :
    (t.drafted root draft content).at? (root.place ++ [draft]) = some (.file content) :=
  at?_put_self (ne_nil_of_at?_eq_none hdraft.free)

include hreaches

theorem locate_draft : t.locate (root.child draft) = .ok (root.place ++ [draft]) := by
  rw [hreaches.locate_child hdraft.inside, if_pos ⟨hdraft.admits, hdraft.admitsName⟩]

/-- A draft is in the way of no file. -/
theorem locate_drafted (hname : Place.Inside name) :
    (t.drafted root draft content).locate (root.child name) = t.locate (root.child name) := by
  apply hreaches.locate_extends _ hname
  exact extends_put (by rw [hdraft.free]; simp)

theorem write_draft : t.write (root.child draft) content = .ok (t.drafted root draft content) := by
  simp only [write, locate_draft hreaches hdraft, bind, Except.bind, hdraft.free]
  rfl

theorem remove_draft :
    ((t.drafted root draft content).remove (root.child draft)).toOption.getD
        (t.drafted root draft content) =
      (t.drafted root draft content).erase (root.place ++ [draft]) := by
  have hlocate := (locate_drafted hreaches hdraft content hdraft.inside).trans
    (locate_draft hreaches hdraft)
  simp only [remove, hlocate, bind, Except.bind, at?_drafted_self hdraft]
  rfl

/-- A draft can be renamed over the files that could be written. -/
theorem rename_draft (hname : Place.Inside name) (hne : draft ≠ name) :
    (t.drafted root draft content).rename (root.child draft) (root.child name) =
      (t.write (root.child name) content).map fun _ =>
        ((t.drafted root draft content).erase (root.place ++ [draft])).put
          (root.place ++ [name]) (.file content) := by
  have hlocate := (locate_drafted hreaches hdraft content hdraft.inside).trans
    (locate_draft hreaches hdraft)
  simp only [rename, write, hlocate, locate_drafted hreaches hdraft content hname, bind,
    Except.bind]
  cases hplace : t.locate (root.child name) with
  | error e => rfl
  | ok place =>
    obtain ⟨-, -, -, rfl⟩ := reaches_of_locate_child hname hplace
    have hother : (t.drafted root draft content).at? (root.place ++ [name]) =
        t.at? (root.place ++ [name]) := at?_put_ne (root.place.file_ne hne.symm)
    simp only [at?_drafted_self hdraft, hother]
    rcases t.at? (root.place ++ [name]) with _ | _ | _ <;> rfl

/-- Writing by way of a draft succeeds where writing at once does, and gives the same tree. -/
theorem writeByDraft_spec (hname : Place.Inside name) (hne : draft ≠ name) :
    (t.writeByDraft (root.child draft) (root.child name) content).1 =
        (t.write (root.child name) content).map (fun _ => ()) ∧
      ((t.write (root.child name) content).toOption.getD t).Same
        (t.writeByDraft (root.child draft) (root.child name) content).2 := by
  have hsame := same_erase_drafted hdraft content
  simp only [writeByDraft, write_draft hreaches hdraft, remove_draft hreaches hdraft,
    rename_draft hreaches hdraft content hname hne]
  cases hwrite : t.write (root.child name) content with
  | error e => exact ⟨rfl, hsame⟩
  | ok written =>
    obtain rfl := eq_put_of_write hname hwrite
    exact ⟨rfl, hsame.edited _ (.put (.file content))⟩

end Drafted

end FileTree

namespace Storage

/-- Stores a value by way of a draft with the given name. -/
def setByDraft (s : Storage) (draft key : Text) (value : Bytes) : Change :=
  if !Key.isValid key then (.error (.invalidKey key), s)
  else match s with
    | directory tree root =>
      match tree.makeDirectories root with
      | (.error _, made) => (.error .files, directory made root)
      | (.ok (), made) =>
        match made.writeByDraft (root.child draft) (root.child (Key.fileName key)) value with
        | (.error _, left) => (.error .files, directory left root)
        | (.ok (), written) => (.ok (), directory written root)
    | s => s.set key value

/-- Storing a value by way of a draft comes to the same as storing it at once, also where that
fails: the outcome is the same, and the trees hold the same, with no draft left. -/
def DraftsVanish (tree : FileTree) (root : Path) : Prop :=
  ∀ draft key value, (tree.makeDirectories root).2.FreeName root draft →
    draft ≠ Key.fileName key →
      ((directory tree root).setByDraft draft key value).1 =
          ((directory tree root).set key value).1 ∧
        ∃ kept left, ((directory tree root).set key value).2 = directory kept root ∧
          ((directory tree root).setByDraft draft key value).2 = directory left root ∧
          kept.Same left ∧ left.at? (root.place ++ [draft]) = none

theorem draftsVanish (tree : FileTree) (root : Path) : DraftsVanish tree root := by
  intro draft key value hdraft hne
  have hfree := hdraft.free
  have hinside : Place.Inside (Key.fileName key) :=
    Key.inside_fileNames key _ (Key.fileName_mem key)
  by_cases hkey : Key.isValid key = true
  · cases hmade : tree.makeDirectories root with
    | mk outcome made =>
      rw [hmade] at hdraft hfree
      cases outcome with
      | error e =>
        simp only [setByDraft, set, hkey, changeIn, hmade]
        exact ⟨trivial, made, made, rfl, rfl, .refl _ made, hfree⟩
      | ok =>
        have hreaches : made.Reaches root := by
          have h : (tree.makeDirectories root).2.Reaches root :=
            FileTree.reaches_of_makeDirectories (by rw [hmade])
          rwa [hmade] at h
        obtain ⟨houtcome, hsame⟩ := FileTree.writeByDraft_spec hreaches hdraft value hinside hne
        simp only [setByDraft, set, hkey, changeIn, hmade]
        generalize made.writeByDraft (root.child draft) (root.child (Key.fileName key)) value =
          result at houtcome hsame
        obtain ⟨outcome, left⟩ := result
        cases hwrite : made.write (root.child (Key.fileName key)) value with
        | error e =>
          rw [hwrite] at houtcome hsame
          cases houtcome
          exact ⟨rfl, made, left, rfl, rfl, hsame, (hsame.items _ trivial).trans hfree⟩
        | ok written =>
          rw [hwrite] at houtcome hsame
          cases houtcome
          obtain rfl := FileTree.eq_put_of_write hinside hwrite
          refine ⟨rfl, _, left, rfl, rfl, hsame, (hsame.items _ trivial).trans ?_⟩
          exact (FileTree.at?_put_ne (root.place.file_ne hne)).trans hfree
  · have hsame : tree.at? (root.place ++ [draft]) = none := by
      by_contra hthere
      have hchange : (tree.makeDirectories root).2.at? (root.place ++ [draft]) ≠
          tree.at? (root.place ++ [draft]) := by
        rw [hfree]
        exact Ne.symm hthere
      exact hthere (FileTree.at?_makeDirectories_ne hchange).2.1
    simp only [setByDraft, set, hkey]
    exact ⟨rfl, tree, tree, rfl, rfl, .refl _ tree, hsame⟩

/-- A draft cannot take the place of a directory and is removed. -/
example :
    let taken := ((FileTree.empty .common).put [['d']] .directory).put [['d'], Key.fileName ['a']]
      .directory
    let left := (directory taken ⟨[['d']], 1⟩).setByDraft ['t'] ['a'] [1]
    left.1 = .error .files ∧ left.2.tree?.map (·.at? [['d'], ['t']]) = some none := by
  decide +kernel

end Storage

end KeypadCalc
