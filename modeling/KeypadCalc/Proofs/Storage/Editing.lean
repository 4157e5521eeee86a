import KeypadCalc.Proofs.Storage.Making

/-! Writing, touching, and removing a file as edits of one place. What an edit does goes by what
stands at its place, so that trees that agree on the way there and at that place are edited alike,
and go on to agree wherever they did. -/

namespace KeypadCalc

/-- What a file operation does to the place where its path leads. -/
inductive Edit
  | keep
  | put (item : Item)
  | erase

namespace Edit

/-! The rules of the file operations: what each does where an item stands or none does. -/

def writing (content : Bytes) : Option Item → Except FileError Edit
  | some .directory => .error .refused
  | _ => .ok (.put (.file content))

def touching : Option Item → Except FileError Edit
  | some (.file _) => .ok .keep
  | some .directory => .error .refused
  | none => .ok (.put (.file []))

def removing : Option Item → Except FileError Edit
  | some (.file _) => .ok .erase
  | some .directory => .error .refused
  | none => .error .missing

end Edit

namespace FileTree

variable {t t' : FileTree} {place p : Place} {name : Text} {names : List Text} {root path : Path}
  {rule : Option Item → Except FileError Edit} {P : Place → Prop}

def edited (t : FileTree) (place : Place) : Edit → FileTree
  | .keep => t
  | .put item => t.put place item
  | .erase => t.erase place

def edit (t : FileTree) (path : Path) (rule : Option Item → Except FileError Edit) :
    Except FileError FileTree :=
  match t.locate path with
  | .error e => .error e
  | .ok place => (rule (t.at? place)).map (t.edited place)

theorem write_eq_edit (t : FileTree) (path : Path) (content : Bytes) :
    t.write path content = t.edit path (Edit.writing content) := by
  unfold write edit
  cases t.locate path with
  | error e => rfl
  | ok place =>
    simp only [bind, Except.bind]
    rcases t.at? place with _ | _ | _ <;> rfl

theorem touch_eq_edit (t : FileTree) (path : Path) : t.touch path = t.edit path Edit.touching := by
  unfold touch edit
  cases t.locate path with
  | error e => rfl
  | ok place =>
    simp only [bind, Except.bind]
    rcases t.at? place with _ | _ | _ <;> rfl

theorem remove_eq_edit (t : FileTree) (path : Path) :
    t.remove path = t.edit path Edit.removing := by
  unfold remove edit
  cases t.locate path with
  | error e => rfl
  | ok place =>
    simp only [bind, Except.bind]
    rcases t.at? place with _ | _ | _ <;> rfl

theorem limits_edited (t : FileTree) (place : Place) (e : Edit) :
    (t.edited place e).limits = t.limits := by
  cases e <;> rfl

theorem at?_edited_ne (e : Edit) (h : p ≠ place) : (t.edited place e).at? p = t.at? p := by
  cases e with
  | keep => rfl
  | put item => exact at?_put_ne h
  | erase => exact at?_erase_ne h

/-- A file in a directory is edited if the directory is there and the rule allows it. -/
theorem edit_child_eq_ok (hname : Place.Inside name)
    (h : t.edit (root.child name) rule = .ok t') :
    t.Reaches root ∧ ∃ e, rule (t.at? (root.place ++ [name])) = .ok e ∧
      t' = t.edited (root.place ++ [name]) e := by
  unfold edit at h
  cases hlocate : t.locate (root.child name) with
  | error e =>
    rw [hlocate] at h
    cases h
  | ok place =>
    obtain ⟨hreaches, -, -, rfl⟩ := reaches_of_locate_child hname hlocate
    rw [hlocate] at h
    simp only at h
    cases hrule : rule (t.at? (root.place ++ [name])) with
    | error e =>
      rw [hrule] at h
      cases h
    | ok e =>
      rw [hrule] at h
      cases h
      exact ⟨hreaches, e, rfl, rfl⟩

/-! ### Trees that agree -/

/-- Two trees have the same bounds and the same items at the places that `P` holds of. -/
structure AgreesOn (P : Place → Prop) (t t' : FileTree) : Prop where
  limits : t'.limits = t.limits
  items : ∀ p, P p → t'.at? p = t.at? p

namespace AgreesOn

theorem refl (P : Place → Prop) (t : FileTree) : t.AgreesOn P t := ⟨rfl, fun _ _ => rfl⟩

theorem edited (h : t.AgreesOn P t') (place : Place) (e : Edit) :
    (t.edited place e).AgreesOn P (t'.edited place e) := by
  refine ⟨by rw [limits_edited, limits_edited, h.limits], fun p hp => ?_⟩
  by_cases heq : p = place
  · subst heq
    by_cases hroot : p = []
    · subst hroot
      rfl
    · cases e with
      | keep => exact h.items p hp
      | put item => exact (at?_put_self hroot).trans (at?_put_self hroot).symm
      | erase => exact (at?_erase_self hroot).trans (at?_erase_self hroot).symm
  · rw [at?_edited_ne e heq, at?_edited_ne e heq, h.items p hp]

theorem walk (h : t.AgreesOn P t')
    (hway : ∀ n < names.length, P ((names.take n).foldl Place.step place)) :
    t'.walk place names = t.walk place names := by
  induction names generalizing place with
  | nil => rfl
  | cons name rest ih =>
    have hplace : t'.at? place = t.at? place := h.items _ (hway 0 (by simp))
    have hrest : t'.walk (place.step name) rest = t.walk (place.step name) rest :=
      ih fun n hn => hway (n + 1) (by simpa using hn)
    unfold FileTree.walk
    rw [hplace, hrest, h.limits]

theorem makeFrom (h : t.AgreesOn P t')
    (hway : ∀ n ≤ names.length, P ((names.take n).foldl Place.step place)) :
    (t'.makeFrom place names).1 = (t.makeFrom place names).1 ∧
      (t.makeFrom place names).2.AgreesOn P (t'.makeFrom place names).2 := by
  induction names generalizing t t' place with
  | nil => exact ⟨rfl, h⟩
  | cons name rest ih =>
    have hrest : ∀ n ≤ rest.length, P ((rest.take n).foldl Place.step (place.step name)) :=
      fun n hn => hway (n + 1) (by simpa using hn)
    have hitem : t'.at? (place.step name) = t.at? (place.step name) := h.items _ (hrest 0 (by simp))
    by_cases hname : t.limits.admitsName name = true
    · have hname' : t'.limits.admitsName name = true := by rw [h.limits, hname]
      cases hstep : t.at? (place.step name) with
      | some item =>
        rw [hstep] at hitem
        cases item with
        | directory =>
          rw [makeFrom_cons_directory hname hstep, makeFrom_cons_directory hname' hitem]
          exact ih h hrest
        | file content =>
          rw [makeFrom_cons_file hname hstep, makeFrom_cons_file hname' hitem]
          exact ⟨rfl, h⟩
      | none =>
        rw [hstep] at hitem
        by_cases hrestates : Path.restates rest = true
        · rw [makeFrom_cons_restates hname hstep hrestates,
            makeFrom_cons_restates hname' hitem hrestates]
          exact ⟨rfl, h⟩
        · rw [makeFrom_cons_none hname hstep hrestates, makeFrom_cons_none hname' hitem hrestates]
          exact ih (h.edited _ (.put .directory)) hrest
    · have hname' : ¬t'.limits.admitsName name = true := by rwa [h.limits]
      rw [makeFrom_cons_refused hname, makeFrom_cons_refused hname']
      exact ⟨rfl, h⟩

section Paths

variable (h : t.AgreesOn P t') (hway : ∀ p ∈ root.places, P p)

include h hway

theorem makeDirectories :
    (t'.makeDirectories root).1 = (t.makeDirectories root).1 ∧
      (t.makeDirectories root).2.AgreesOn P (t'.makeDirectories root).2 := by
  have hnames : ∀ n ≤ root.names.length, P ((root.names.take n).foldl Place.step []) :=
    fun n hn => hway _ (List.mem_map.2 ⟨n, List.mem_range.2 (by omega), rfl⟩)
  unfold FileTree.makeDirectories
  rw [h.limits]
  split
  · exact h.makeFrom hnames
  · exact ⟨rfl, h⟩

theorem locate_child (name : Text) :
    t'.locate (root.child name) = t.locate (root.child name) := by
  have hnames : ∀ n < (root.names ++ [name]).length,
      P (((root.names ++ [name]).take n).foldl Place.step []) := by
    intro n hn
    rw [List.length_append, List.length_singleton] at hn
    rw [List.take_append_of_le_length (by omega)]
    exact hway _ (List.mem_map.2 ⟨n, List.mem_range.2 hn, rfl⟩)
  unfold locate
  rw [h.limits]
  split
  · exact h.walk hnames
  · rfl

theorem edit_child (hname : Place.Inside name) (hP : P (root.place ++ [name]))
    (rule : Option Item → Except FileError Edit) :
    (∃ e, t.edit (root.child name) rule = .error e ∧ t'.edit (root.child name) rule = .error e) ∨
      ∃ u u', t.edit (root.child name) rule = .ok u ∧ t'.edit (root.child name) rule = .ok u' ∧
        u.AgreesOn P u' := by
  unfold FileTree.edit
  rw [h.locate_child hway name]
  cases hlocate : t.locate (root.child name) with
  | error e => exact .inl ⟨e, rfl, rfl⟩
  | ok place =>
    obtain ⟨-, -, -, rfl⟩ := reaches_of_locate_child hname hlocate
    simp only [h.items _ hP]
    cases rule (t.at? (root.place ++ [name])) with
    | error e => exact .inl ⟨e, rfl, rfl⟩
    | ok e => exact .inr ⟨_, _, rfl, rfl, h.edited _ e⟩

end Paths

end AgreesOn

end FileTree

end KeypadCalc
