import KeypadCalc.Proofs.Storage.FileTree

/-! File operations, whatever comes of them. Making directories puts them only on its way and only
where nothing stood, also if it fails; writing, touching, and removing a file are edits of one place
each. What is read afterwards is what was read before. -/

namespace KeypadCalc

/-- Where a path leads if all names on its way follow directories. -/
def Path.place (p : Path) : Place := p.names.foldl Place.step []

theorem Path.place_child {name : Text} (root : Path) (h : Place.Inside name) :
    (root.child name).place = root.place ++ [name] := by
  show (root.names ++ [name]).foldl Place.step [] = root.place ++ [name]
  rw [List.foldl_append, List.foldl_cons, List.foldl_nil, Place.step_inside h]
  rfl

theorem Place.file_ne {name other : Text} (place : Place) (h : name ≠ other) :
    place ++ [name] ≠ place ++ [other] :=
  fun heq => h (List.singleton_inj.1 (List.append_cancel_left heq))

namespace FileTree

variable {t t' : FileTree} {place p q : Place} {name : Text} {names : List Text} {root : Path}

/-! ### Following names -/

theorem walk_of_walk_concat (h : t.walk place (names ++ [name]) = .ok q) :
    ∃ last, t.walk place names = .ok last ∧ t.at? last = some .directory ∧
      t.limits.admitsName name = true ∧ q = last.step name := by
  rw [walk_append] at h
  cases hlast : t.walk place names with
  | error e =>
    rw [hlast] at h
    cases h
  | ok last =>
    rw [hlast] at h
    obtain ⟨hplace, hname, hrest⟩ := at?_of_walk_cons h
    cases hrest
    exact ⟨last, rfl, hplace, hname, rfl⟩

/-- Nothing is there where names lead. -/
def Absent (t : FileTree) (place : Place) (names : List Text) : Prop :=
  t.walk place names = .error .missing ∨ ∃ q, t.walk place names = .ok q ∧ t.at? q = none

theorem Absent.cons (hplace : t.at? place = some .directory)
    (hname : t.limits.admitsName name = true) (h : t.Absent (place.step name) names) :
    t.Absent place (name :: names) := by
  unfold Absent
  rw [walk_cons hplace hname]
  exact h

/-- A path reaches a directory. -/
structure Reaches (t : FileTree) (root : Path) : Prop where
  walk : t.walk [] root.names = .ok root.place
  directory : t.at? root.place = some .directory

theorem reaches_of_walk (hwalk : t.walk [] root.names = .ok q) (hq : t.at? q = some .directory) :
    t.Reaches root := by
  obtain rfl : q = root.place := eq_foldl_of_walk hwalk
  exact ⟨hwalk, hq⟩

theorem Reaches.extend (h : t.Reaches root) (hext : t.Extends t') : t'.Reaches root :=
  ⟨hext.walk h.walk, hext.directories _ h.directory⟩

theorem Reaches.walk_child (h : t.Reaches root) (hname : Place.Inside name) :
    t.walk [] (root.child name).names =
      if t.limits.admitsName name then .ok (root.place ++ [name]) else .error .refused := by
  rw [Path.child, walk_concat h.walk h.directory, Place.step_inside hname]

/-- A file in a directory is found by following the path of the directory first. -/
theorem reaches_of_locate_child (hname : Place.Inside name)
    (h : t.locate (root.child name) = .ok q) :
    t.Reaches root ∧ t.limits.admits (root.child name) = true ∧
      t.limits.admitsName name = true ∧ q = root.place ++ [name] := by
  unfold locate at h
  split at h
  · rename_i hadmits
    obtain ⟨last, hlast, hdirectory, hname', rfl⟩ := walk_of_walk_concat h
    have hreaches := reaches_of_walk hlast hdirectory
    obtain rfl : last = root.place := eq_foldl_of_walk hlast
    exact ⟨hreaches, hadmits, hname', Place.step_inside hname _⟩
  · cases h

/-! ### Making directories -/

theorem ne_nil_of_at?_eq_none (h : t.at? place = none) : place ≠ [] := by
  rintro rfl
  cases h

theorem makeFrom_cons_refused (hname : ¬t.limits.admitsName name = true) (rest : List Text) :
    t.makeFrom place (name :: rest) = (.error .refused, t) := by
  rw [makeFrom, if_pos (by simpa using hname)]

section Making

variable {rest : List Text} (hname : t.limits.admitsName name = true)

include hname

theorem makeFrom_cons_directory (h : t.at? (place.step name) = some .directory) :
    t.makeFrom place (name :: rest) = t.makeFrom (place.step name) rest := by
  rw [makeFrom, hname, h]
  rfl

theorem makeFrom_cons_file {content : Bytes} (h : t.at? (place.step name) = some (.file content)) :
    t.makeFrom place (name :: rest) = (.error .refused, t) := by
  rw [makeFrom, hname, h]
  rfl

theorem makeFrom_cons_restates (h : t.at? (place.step name) = none)
    (hrest : Path.restates rest = true) :
    t.makeFrom place (name :: rest) = (.error .missing, t) := by
  rw [makeFrom, hname, h, hrest]
  rfl

theorem makeFrom_cons_none (h : t.at? (place.step name) = none)
    (hrest : ¬Path.restates rest = true) :
    t.makeFrom place (name :: rest) =
      (t.put (place.step name) .directory).makeFrom (place.step name) rest := by
  rw [makeFrom, hname, h]
  exact if_neg hrest

end Making

theorem extends_makeFrom (t : FileTree) (place : Place) (names : List Text) :
    t.Extends (t.makeFrom place names).2 := by
  fun_induction makeFrom t place names with
  | case1 t place => exact Extends.refl t
  | case2 t place name rest hname => exact Extends.refl t
  | case3 t place name rest hname hstep ih => exact ih
  | case4 t place name rest hname content hstep => exact Extends.refl t
  | case5 t place name rest hname hstep hrest => exact Extends.refl t
  | case6 t place name rest hname hstep hrest ih =>
    exact (extends_put (by rw [hstep]; simp)).trans ih

theorem extends_makeDirectories (t : FileTree) (root : Path) :
    t.Extends (t.makeDirectories root).2 := by
  unfold makeDirectories
  split
  · exact extends_makeFrom ..
  · exact Extends.refl t

/-- A place that changes while directories are made lies on the way, nothing stood there, and it
is a directory then. -/
theorem at?_makeFrom_ne (h : (t.makeFrom place names).2.at? p ≠ t.at? p) :
    (∃ n ≤ names.length, p = (names.take n).foldl Place.step place) ∧ t.at? p = none ∧
      (t.makeFrom place names).2.at? p = some .directory := by
  fun_induction makeFrom t place names with
  | case1 => exact absurd rfl h
  | case2 => exact absurd rfl h
  | case3 t place name rest hname hstep ih =>
    obtain ⟨⟨n, hn, hp⟩, hbefore, hafter⟩ := ih h
    exact ⟨⟨n + 1, by simpa using hn, hp⟩, hbefore, hafter⟩
  | case4 => exact absurd rfl h
  | case5 => exact absurd rfl h
  | case6 t place name rest hname hstep hrest ih =>
    by_cases hp : p = place.step name
    · subst hp
      refine ⟨⟨1, by simp, by simp⟩, hstep, ?_⟩
      exact (extends_makeFrom ..).directories _ (at?_put_self (ne_nil_of_at?_eq_none hstep))
    · have hput : (t.put (place.step name) .directory).at? p = t.at? p := at?_put_ne hp
      rw [← hput] at h ⊢
      obtain ⟨⟨n, hn, hp⟩, hbefore, hafter⟩ := ih h
      exact ⟨⟨n + 1, by simpa using hn, hp⟩, hbefore, hafter⟩

theorem at?_makeDirectories_ne (h : (t.makeDirectories root).2.at? p ≠ t.at? p) :
    p ∈ root.places ∧ t.at? p = none ∧ (t.makeDirectories root).2.at? p = some .directory := by
  unfold makeDirectories at h ⊢
  split at h
  · rename_i hadmits
    rw [if_pos hadmits]
    obtain ⟨⟨n, hn, hp⟩, hrest⟩ := at?_makeFrom_ne h
    refine ⟨List.mem_map.2 ⟨n, List.mem_range.2 (by omega), hp.symm⟩, hrest⟩
  · exact absurd rfl h

/-- Where directories are made, the names have led to nothing before. -/
theorem makeFrom_eq_self_or (hplace : t.at? place = some .directory) (names : List Text) :
    (t.makeFrom place names).2 = t ∨
      ∀ more ≠ [], t.walk place (names ++ more) = .error .missing := by
  induction names generalizing place with
  | nil => exact .inl rfl
  | cons name rest ih =>
    by_cases hname : t.limits.admitsName name = true
    · have hwalk : ∀ more, t.walk place (name :: rest ++ more) =
          t.walk (place.step name) (rest ++ more) := fun more => walk_cons hplace hname _
      simp only [hwalk]
      cases hstep : t.at? (place.step name) with
      | none => exact .inr fun more hmore => walk_append_missing hstep rest hmore
      | some item =>
        cases item with
        | directory =>
          rw [makeFrom_cons_directory hname hstep]
          exact ih hstep
        | file content =>
          rw [makeFrom_cons_file hname hstep]
          exact .inl rfl
    · rw [makeFrom_cons_refused hname]
      exact .inl rfl

theorem makeDirectories_eq_self_or (t : FileTree) (root : Path) :
    (t.makeDirectories root).2 = t ∨
      ∀ name, t.walk [] (root.child name).names = .error .missing := by
  unfold makeDirectories
  split
  · have hroot : t.at? [] = some .directory := rfl
    rcases makeFrom_eq_self_or hroot root.names with hself | hmissing
    · exact .inl hself
    · exact .inr fun name => hmissing [name] (by simp)
  · exact .inl rfl

/-- Directories that have been made are not made again. -/
theorem makeDirectories_again (h : (t.makeDirectories root).1 = .ok ())
    (hext : (t.makeDirectories root).2.Extends t') : t'.makeDirectories root = (.ok (), t') := by
  obtain ⟨hmade, q, hwalk, hq⟩ := makeDirectories_spec (Prod.ext h rfl)
  have hadmits : t.limits.admits root = true := by
    by_contra hrefused
    rw [makeDirectories, if_neg hrefused] at h
    cases h
  rw [makeDirectories, hext.limits, hmade.limits, if_pos hadmits]
  exact makeFrom_eq_self (hext.walk hwalk) (hext.directories _ hq)

theorem reaches_of_makeDirectories (h : (t.makeDirectories root).1 = .ok ()) :
    (t.makeDirectories root).2.Reaches root := by
  obtain ⟨-, q, hwalk, hq⟩ := makeDirectories_spec (Prod.ext h rfl)
  exact reaches_of_walk hwalk hq

/-! ### New directories

A directory that has been made is empty, if every item of the tree stood in a directory and the
path leads up from nowhere but directories that were there. -/

/-- Names lead up only from directories that are there. -/
def Descends (t : FileTree) (place : Place) (names : List Text) : Prop :=
  ∀ front rest, names = front ++ rest → t.at? (front.foldl Place.step place) = none →
    Place.above ∉ rest

theorem descends_of_notMem (h : Place.above ∉ names) : t.Descends place names := by
  rintro front rest rfl - hmem
  exact h (List.mem_append_right front hmem)

theorem Descends.tail (h : t.Descends place (name :: names)) :
    t.Descends (place.step name) names :=
  fun front rest hsplit => h (name :: front) rest (by rw [hsplit]; rfl)

/-- In a directory that holds nothing, no file is there after directories have been made, even if
not all of them could be. -/
theorem absent_of_makeFrom_vacant (hplace : t.at? place = some .directory)
    (hvacant : ∀ more ≠ [], t.at? (place ++ more) = none) (hup : Place.above ∉ names)
    (hnames : ∀ n ∈ names, t.limits.admitsName n = true)
    (hname : t.limits.admitsName name = true) (hinside : Place.Inside name) :
    (t.makeFrom place names).2.Absent place (names ++ [name]) := by
  induction names generalizing t place with
  | nil =>
    refine .inr ⟨place.step name, walk_cons hplace hname [], ?_⟩
    rw [Place.step_inside hinside]
    exact hvacant [name] (by simp)
  | cons first rest ih =>
    obtain ⟨hfirst, hrest⟩ := List.forall_mem_cons.1 hnames
    rw [List.mem_cons, not_or] at hup
    have hext := extends_makeFrom t place (first :: rest)
    refine Absent.cons (hext.directories _ hplace) (by rw [hext.limits]; exact hfirst) ?_
    by_cases hstay : first = [] ∨ first = Place.here
    · -- the name says once more that this place is meant
      have hstep : place.step first = place := if_pos hstay
      rw [makeFrom_cons_directory hfirst (by rw [hstep]; exact hplace), hstep]
      exact ih hplace hvacant hup.2 hrest hname
    · have hstep : place.step first = place ++ [first] := by
        rw [Place.step, if_neg hstay, if_neg (Ne.symm hup.1)]
      have hnone : t.at? (place.step first) = none := by
        rw [hstep]
        exact hvacant [first] (by simp)
      by_cases hrestates : Path.restates rest = true
      · rw [makeFrom_cons_restates hfirst hnone hrestates]
        exact .inl (walk_append_missing hnone rest (by simp))
      · rw [makeFrom_cons_none hfirst hnone hrestates]
        refine ih (at?_put_self (ne_nil_of_at?_eq_none hnone)) ?_ hup.2 hrest hname
        intro more hmore
        rw [at?_put_ne (by simpa using hmore), hstep, List.append_assoc]
        exact hvacant _ (by simp)

/-- Wherever names lead up only from directories that are there, no file comes to light when
directories are made for them. -/
theorem absent_of_makeFrom (hsound : t.Sound) (hplace : t.at? place = some .directory)
    (hdescends : t.Descends place names) (hnames : ∀ n ∈ names, t.limits.admitsName n = true)
    (hname : t.limits.admitsName name = true) (hinside : Place.Inside name) :
    (t.makeFrom place names).2 = t ∨
      (t.makeFrom place names).2.Absent place (names ++ [name]) := by
  induction names generalizing place with
  | nil => exact .inl rfl
  | cons first rest ih =>
    obtain ⟨hfirst, hrest⟩ := List.forall_mem_cons.1 hnames
    have hext := extends_makeFrom t place (first :: rest)
    have hcons : (t.makeFrom place (first :: rest)).2.Absent (place.step first) (rest ++ [name]) →
        (t.makeFrom place (first :: rest)).2.Absent place (first :: rest ++ [name]) :=
      Absent.cons (hext.directories _ hplace) (by rw [hext.limits]; exact hfirst)
    cases hstep : t.at? (place.step first) with
    | some item =>
      cases item with
      | directory =>
        rw [makeFrom_cons_directory hfirst hstep] at hcons ⊢
        exact (ih hstep hdescends.tail hrest).imp_right hcons
      | file content =>
        rw [makeFrom_cons_file hfirst hstep]
        exact .inl rfl
    | none =>
      by_cases hrestates : Path.restates rest = true
      · rw [makeFrom_cons_restates hfirst hstep hrestates]
        exact .inl rfl
      · rw [makeFrom_cons_none hfirst hstep hrestates] at hcons ⊢
        refine .inr (hcons (absent_of_makeFrom_vacant ?_ ?_ ?_ hrest hname hinside))
        · exact at?_put_self (ne_nil_of_at?_eq_none hstep)
        · intro more hmore
          rw [at?_put_ne (by simpa using hmore)]
          exact hsound.at?_append hstep more
        · exact hdescends [first] rest rfl hstep

theorem absent_of_makeDirectories (hsound : t.Sound) (hdescends : t.Descends [] root.names)
    (hnames : ∀ n ∈ root.names ++ [name], t.limits.admitsName n = true)
    (hinside : Place.Inside name) :
    (t.makeDirectories root).2 = t ∨
      (t.makeDirectories root).2.Absent [] (root.child name).names := by
  rw [List.forall_mem_append, List.forall_mem_singleton] at hnames
  unfold makeDirectories
  split
  · exact absent_of_makeFrom hsound rfl hdescends hnames.1 hnames.2 hinside
  · exact .inl rfl

theorem read_of_absent {path : Path} (h : t.Absent [] path.names) :
    t.read path = .error (if t.limits.admits path then .missing else .refused) := by
  unfold read locate
  split
  · rcases h with hmissing | ⟨q, hwalk, hnone⟩
    · rw [hmissing]
      rfl
    · simp only [hwalk, bind, Except.bind, hnone]
      rfl
  · rfl

end FileTree

end KeypadCalc
