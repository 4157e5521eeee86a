import KeypadCalc.Storage.FileTree
import Mathlib.Data.List.Induction

/-! What file operations do to a tree. A directory that has been made is reached by its path, and
writing, touching, and removing a file in it leaves everything else where it is. -/

namespace KeypadCalc

/-! ### Items of a list -/

section Items

variable {α β : Type} [BEq α] [LawfulBEq α] [DecidableEq α] {a b : α}

theorem lookup_filter_self (l : List (α × β)) (a : α) :
    (l.filter fun i => i.1 ≠ a).lookup a = none := by
  rw [List.lookup_eq_none_iff]
  intro i hmem
  have hne : i.1 ≠ a := of_decide_eq_true (List.mem_filter.1 hmem).2
  exact bne_iff_ne.2 hne.symm

theorem lookup_filter_ne (l : List (α × β)) (h : b ≠ a) :
    (l.filter fun i => i.1 ≠ a).lookup b = l.lookup b := by
  induction l with
  | nil => rfl
  | cons i l ih =>
    obtain ⟨c, x⟩ := i
    by_cases hc : c = a
    · subst hc
      rw [List.filter_cons_of_neg (by simp), ih, List.lookup_cons, beq_eq_false_iff_ne.2 h]
    · rw [List.filter_cons_of_pos (by simpa using hc), List.lookup_cons, List.lookup_cons, ih]

end Items

namespace Place

/-- A name that leads to a place inside a directory. -/
def Inside (name : Text) : Prop := name ≠ [] ∧ name ≠ here ∧ name ≠ above

theorem step_inside {name : Text} (h : Inside name) (place : Place) :
    place.step name = place ++ [name] := by
  rw [step, if_neg (by simp [h.1, h.2.1]), if_neg h.2.2]

end Place

theorem Limits.admits_of_child {limits : Limits} {root : Path} {name : Text}
    (h : limits.admits (root.child name) = true) : limits.admits root = true := by
  simp only [Limits.admits, Path.child, Bool.and_eq_true, List.all_append] at h ⊢
  refine ⟨?_, h.2.1⟩
  cases hpath : limits.path with
  | none => rfl
  | some bound =>
    rw [hpath] at h
    have hsize := of_decide_eq_true h.1
    exact decide_eq_true (by omega)

namespace FileTree

variable {t t' : FileTree} {place p q : Place} {item : Item} {name : Text} {names : List Text}

/-! ### What stands at a place -/

theorem at?_erase_self (h : place ≠ []) : (t.erase place).at? place = none := by
  rw [at?, if_neg h]
  exact lookup_filter_self ..

theorem at?_erase_ne (h : p ≠ place) : (t.erase place).at? p = t.at? p := by
  unfold at?
  split
  · rfl
  · exact lookup_filter_ne _ h

theorem at?_put_self (h : place ≠ []) : (t.put place item).at? place = some item := by
  rw [at?, if_neg h]
  exact List.lookup_cons_self

theorem at?_put_ne (h : p ≠ place) : (t.put place item).at? p = t.at? p := by
  rw [← at?_erase_ne (t := t) h]
  unfold at?
  split
  · rfl
  · rw [put, List.lookup_cons, beq_eq_false_iff_ne.2 h]

/-! ### Trees with more directories -/

/-- `after` has the bounds of `before` and all its directories. -/
structure Extends (before after : FileTree) : Prop where
  limits : after.limits = before.limits
  directories : ∀ p, before.at? p = some .directory → after.at? p = some .directory

theorem Extends.refl (t : FileTree) : t.Extends t := ⟨rfl, fun _ h => h⟩

theorem Extends.trans {t₁ t₂ t₃ : FileTree} (h₁ : t₁.Extends t₂) (h₂ : t₂.Extends t₃) :
    t₁.Extends t₃ :=
  ⟨h₂.limits.trans h₁.limits, fun p hp => h₂.directories p (h₁.directories p hp)⟩

theorem extends_put (h : t.at? place ≠ some .directory) : t.Extends (t.put place item) := by
  refine ⟨rfl, fun p hp => ?_⟩
  rw [at?_put_ne, hp]
  rintro rfl
  exact h hp

theorem extends_erase (h : t.at? place ≠ some .directory) : t.Extends (t.erase place) := by
  refine ⟨rfl, fun p hp => ?_⟩
  rw [at?_erase_ne, hp]
  rintro rfl
  exact h hp

/-! ### Following names -/

theorem walk_cons (h : t.at? place = some .directory) (hname : t.limits.admitsName name = true)
    (names : List Text) : t.walk place (name :: names) = t.walk (place.step name) names := by
  rw [walk, h]
  exact if_pos hname

theorem walk_append_missing (h : t.at? place = none) (names : List Text) {more : List Text}
    (hmore : more ≠ []) : t.walk place (names ++ more) = .error .missing := by
  obtain ⟨next, rest, hnames⟩ :=
    List.exists_cons_of_ne_nil (List.append_ne_nil_of_right_ne_nil names hmore)
  rw [hnames, walk, h]

theorem at?_of_walk_cons (h : t.walk place (name :: names) = .ok q) :
    t.at? place = some .directory ∧ t.limits.admitsName name = true ∧
      t.walk (place.step name) names = .ok q := by
  unfold walk at h
  split at h
  · rename_i hplace
    split at h
    · rename_i hname
      exact ⟨hplace, hname, h⟩
    · cases h
  · cases h
  · cases h

theorem Extends.walk (hext : t.Extends t') (h : t.walk place names = .ok q) :
    t'.walk place names = .ok q := by
  induction names generalizing place with
  | nil => exact h
  | cons name names ih =>
    obtain ⟨hplace, hname, hrest⟩ := at?_of_walk_cons h
    rw [walk_cons (hext.directories _ hplace) (by rw [hext.limits, hname])]
    exact ih hrest

/-- Names that stand after others are followed from where the others lead. -/
theorem walk_append (t : FileTree) (place : Place) (names more : List Text) :
    t.walk place (names ++ more) = t.walk place names >>= fun q => t.walk q more := by
  induction names generalizing place with
  | nil => rfl
  | cons name names ih =>
    rw [List.cons_append, walk, walk]
    split
    · split
      · exact ih _
      · rfl
    · rfl
    · rfl

theorem walk_concat (h : t.walk place names = .ok q) (hq : t.at? q = some .directory)
    (name : Text) : t.walk place (names ++ [name]) =
      if t.limits.admitsName name then .ok (q.step name) else .error .refused := by
  rw [walk_append, h]
  change t.walk q [name] = _
  rw [walk, hq]
  rfl

theorem eq_foldl_of_walk (h : t.walk place names = .ok q) : q = names.foldl Place.step place := by
  induction names generalizing place with
  | nil =>
    cases h
    rfl
  | cons name names ih => exact ih (at?_of_walk_cons h).2.2

/-! ### Making directories -/

/-- Directories that have been made are reached by the names they were made for. -/
theorem walk_of_makeFrom (hplace : t.at? place = some .directory)
    (h : t.makeFrom place names = (.ok (), t')) :
    t.Extends t' ∧ ∃ q, t'.walk place names = .ok q ∧ t'.at? q = some .directory := by
  fun_induction makeFrom t place names with
  | case1 t place =>
    cases h
    exact ⟨Extends.refl _, place, rfl, hplace⟩
  | case2 t place name rest hname => cases h
  | case3 t place name rest hname hstep ih =>
    obtain ⟨hext, q, hwalk, hq⟩ := ih hstep h
    refine ⟨hext, q, ?_, hq⟩
    rw [walk_cons (hext.directories _ hplace) (by simpa [hext.limits] using hname)]
    exact hwalk
  | case4 => cases h
  | case5 => cases h
  | case6 t place name rest hname hstep hrest ih =>
    have hne : place.step name ≠ [] := by
      intro heq
      rw [heq] at hstep
      cases hstep
    have hput : t.Extends (t.put (place.step name) .directory) := extends_put (by simp [hstep])
    obtain ⟨hext, q, hwalk, hq⟩ := ih (at?_put_self hne) h
    refine ⟨hput.trans hext, q, ?_, hq⟩
    have hplace' := hext.directories _ (hput.directories _ hplace)
    have hname' : t'.limits.admitsName name = true := by
      rw [hext.limits, hput.limits]
      simpa using hname
    rw [walk_cons hplace' hname']
    exact hwalk

/-- Nothing is made where names lead to a directory already. -/
theorem makeFrom_eq_self (h : t.walk place names = .ok q) (hq : t.at? q = some .directory) :
    t.makeFrom place names = (.ok (), t) := by
  induction names generalizing place with
  | nil => rfl
  | cons name names ih =>
    obtain ⟨-, hname, hrest⟩ := at?_of_walk_cons h
    have hstep : t.at? (place.step name) = some .directory := by
      cases names with
      | nil =>
        cases hrest
        exact hq
      | cons next names => exact (at?_of_walk_cons hrest).1
    rw [makeFrom, hname, hstep]
    exact ih hrest

theorem makeDirectories_spec {root : Path} (h : t.makeDirectories root = (.ok (), t')) :
    t.Extends t' ∧ ∃ q, t'.walk [] root.names = .ok q ∧ t'.at? q = some .directory := by
  unfold makeDirectories at h
  split at h
  · exact walk_of_makeFrom rfl h
  · cases h

/-! ### Paths that do not lead up

Making directories for such a path changes nothing about the files in the last of them, if every
item stands in a directory. -/

/-- Every item stands in a directory. -/
def Sound (t : FileTree) : Prop :=
  ∀ p name, t.at? (p ++ [name]) ≠ none → t.at? p = some .directory

theorem sound_empty (limits : Limits) : (empty limits).Sound := by
  intro p name h
  rw [at?, if_neg (by simp)] at h
  exact absurd rfl h

theorem Sound.at?_append (h : t.Sound) (hplace : t.at? place = none) (more : Place) :
    t.at? (place ++ more) = none := by
  induction more using List.reverseRecOn with
  | nil => rwa [List.append_nil]
  | append_singleton more name ih =>
    by_contra hne
    rw [← List.append_assoc] at hne
    rw [h _ name hne] at ih
    cases ih

theorem prefix_step (place : Place) (h : name ≠ Place.above) : place <+: place.step name := by
  unfold Place.step
  split
  · exact List.prefix_rfl
  · exact List.prefix_append ..

theorem prefix_foldl_step (place : Place) (h : Place.above ∉ names) :
    place <+: names.foldl Place.step place := by
  induction names generalizing place with
  | nil => exact List.prefix_rfl
  | cons name names ih =>
    rw [List.mem_cons, not_or] at h
    exact (prefix_step place (Ne.symm h.1)).trans (ih _ h.2)

/-- Directories are made at places on the way only. -/
theorem at?_of_makeFrom (hup : Place.above ∉ names)
    (h : t.makeFrom place names = (.ok (), t')) (hp : ¬p <+: names.foldl Place.step place) :
    t'.at? p = t.at? p := by
  fun_induction makeFrom t place names with
  | case1 t place =>
    cases h
    rfl
  | case2 => cases h
  | case3 t place name rest hname hstep ih => exact ih (fun hmem => hup (.tail _ hmem)) h hp
  | case4 => cases h
  | case5 => cases h
  | case6 t place name rest hname hstep hrest ih =>
    have hup' : Place.above ∉ rest := fun hmem => hup (.tail _ hmem)
    rw [ih hup' h hp, at?_put_ne]
    rintro rfl
    exact hp (prefix_foldl_step _ hup')

/-- Where directories are made for some names, there has been no file behind those names. -/
theorem walk_or_of_makeFrom (hsound : t.Sound) (hup : Place.above ∉ names)
    (hplace : t.at? place = some .directory) (h : t.makeFrom place names = (.ok (), t')) :
    t' = t ∨ t.walk place (names ++ [name]) = .error .missing ∧
      ∀ more, t.at? (names.foldl Place.step place ++ more) = none := by
  induction names generalizing place with
  | nil =>
    cases h
    exact .inl rfl
  | cons first rest ih =>
    have hup' : Place.above ∉ rest := fun hmem => hup (.tail _ hmem)
    unfold makeFrom at h
    split at h
    · cases h
    · rename_i hname
      have hwalk := walk_cons hplace (by simpa using hname) (rest ++ [name])
      split at h
      · rename_i hstep
        rw [List.cons_append, hwalk]
        exact ih hup' hstep h
      · cases h
      · rename_i hstep
        refine .inr ⟨?_, fun more => ?_⟩
        · rw [List.cons_append, hwalk]
          exact walk_append_missing hstep rest (by simp)
        · obtain ⟨way, hway⟩ := prefix_foldl_step (place.step first) hup'
          rw [List.foldl_cons, ← hway, List.append_assoc]
          exact hsound.at?_append hstep _

/-- Making directories for a path that does not lead up brings no file to light. -/
theorem item?_of_makeDirectories {root : Path} (hsound : t.Sound) (hup : Place.above ∉ root.names)
    (hname : Place.Inside name) (h : t.makeDirectories root = (.ok (), t')) :
    t'.item? (root.child name) = t.item? (root.child name) := by
  unfold makeDirectories at h
  split at h
  swap
  · cases h
  rcases walk_or_of_makeFrom hsound hup rfl h with rfl | ⟨hwalk, hnone⟩
  · rfl
  have hbefore : t.item? (root.child name) = none := by
    unfold item? locate
    split
    · rename_i hlocate
      split at hlocate
      · rw [Path.child, hwalk] at hlocate
        cases hlocate
      · cases hlocate
    · rfl
  rw [hbefore]
  unfold item? locate
  split
  · rename_i p hlocate
    split at hlocate
    · have hp := eq_foldl_of_walk hlocate
      rw [Path.child, List.foldl_append, List.foldl_cons, List.foldl_nil,
        Place.step_inside hname] at hp
      rw [hp, at?_of_makeFrom hup h, hnone]
      intro hprefix
      have hlength := hprefix.length_le
      rw [List.length_append, List.length_singleton] at hlength
      omega
    · cases hlocate
  · rfl

/-! ### Files in a directory -/

/-- The path `root` leads to the directory `place`, and files with the given names can stand in
it: their names and paths are not too long, and no directory has one of the names. -/
structure Houses (t : FileTree) (root : Path) (place : Place) (names : List Text) : Prop where
  walk : t.walk [] root.names = .ok place
  directory : t.at? place = some .directory
  inside : ∀ name ∈ names, Place.Inside name
  admits : ∀ name ∈ names, t.limits.admits (root.child name) = true
  admitsName : ∀ name ∈ names, t.limits.admitsName name = true
  free : ∀ name ∈ names, t.at? (place ++ [name]) ≠ some .directory

namespace Houses

variable {root : Path} {content : Bytes}

theorem locate (h : t.Houses root place names) (hname : name ∈ names) :
    t.locate (root.child name) = .ok (place ++ [name]) := by
  rw [FileTree.locate, if_pos (h.admits name hname), Path.child,
    walk_concat h.walk h.directory, if_pos (h.admitsName name hname),
    Place.step_inside (h.inside name hname)]

theorem item? (h : t.Houses root place names) (hname : name ∈ names) :
    t.item? (root.child name) = t.at? (place ++ [name]) := by
  rw [FileTree.item?, h.locate hname]

theorem makeDirectories (h : t.Houses root place names) (hname : name ∈ names) :
    t.makeDirectories root = (.ok (), t) := by
  have hroot := Limits.admits_of_child (h.admits name hname)
  rw [FileTree.makeDirectories, if_pos hroot, makeFrom_eq_self h.walk h.directory]

/-- A change that leaves directories where they are, and makes none of the names a directory. -/
theorem extend (h : t.Houses root place names) (hext : t.Extends t')
    (hfree : ∀ name ∈ names, t'.at? (place ++ [name]) ≠ some .directory) :
    t'.Houses root place names where
  walk := hext.walk h.walk
  directory := hext.directories _ h.directory
  inside := h.inside
  admits := by rw [hext.limits]; exact h.admits
  admitsName := by rw [hext.limits]; exact h.admitsName
  free := hfree

theorem put (h : t.Houses root place names) (hname : name ∈ names) :
    (t.put (place ++ [name]) (.file content)).Houses root place names := by
  refine h.extend (extends_put (h.free name hname)) fun other hother => ?_
  by_cases heq : place ++ [other] = place ++ [name]
  · rw [heq, at?_put_self (by simp)]
    simp
  · rw [at?_put_ne heq]
    exact h.free other hother

theorem erase (h : t.Houses root place names) (hname : name ∈ names) :
    (t.erase (place ++ [name])).Houses root place names := by
  refine h.extend (extends_erase (h.free name hname)) fun other hother => ?_
  by_cases heq : place ++ [other] = place ++ [name]
  · rw [heq, at?_erase_self (by simp)]
    simp
  · rw [at?_erase_ne heq]
    exact h.free other hother

theorem write (h : t.Houses root place names) (hname : name ∈ names) :
    t.write (root.child name) content = .ok (t.put (place ++ [name]) (.file content)) := by
  have hfree := h.free name hname
  simp only [FileTree.write, h.locate hname, bind, Except.bind]
  rfl

/-- Touching a file changes nothing but that the file is there. -/
theorem touch (h : t.Houses root place names) (hname : name ∈ names) :
    ∃ t', t.touch (root.child name) = .ok t' ∧ t'.Houses root place names ∧
      ∀ p ≠ place ++ [name], t'.at? p = t.at? p := by
  have hfree := h.free name hname
  simp only [FileTree.touch, h.locate hname, bind, Except.bind]
  split
  · exact ⟨t, rfl, h, fun p _ => rfl⟩
  · contradiction
  · exact ⟨_, rfl, h.put hname, fun p hp => at?_put_ne hp⟩

/-- After removing a file it is not there; it may have been missing before. -/
theorem remove (h : t.Houses root place names) (hname : name ∈ names) :
    (∃ c, t.at? (place ++ [name]) = some (.file c) ∧
      t.remove (root.child name) = .ok (t.erase (place ++ [name]))) ∨
    t.at? (place ++ [name]) = none ∧ t.remove (root.child name) = .error .missing := by
  have hfree := h.free name hname
  simp only [FileTree.remove, h.locate hname, bind, Except.bind]
  split
  · rename_i c heq
    exact .inl ⟨c, heq, rfl⟩
  · contradiction
  · rename_i heq
    exact .inr ⟨heq, rfl⟩

end Houses

end FileTree

end KeypadCalc
