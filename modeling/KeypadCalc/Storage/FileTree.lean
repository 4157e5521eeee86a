import KeypadCalc.Text.Utf8

/-! A tree of files and directories, as a list of what stands at which place. Paths are followed
from the root, name by name; the names `.` and `..` stand for the place itself and the one above it,
and may only follow a directory. So may the empty name, with which a path ends that is spelled with
a slash at its end. How long names and paths may be depends on the tree. -/

namespace KeypadCalc

/-- A place in a tree: the names that lead to it from the root. -/
abbrev Place := List Text

namespace Place

def here : Text := ['.']

def above : Text := ['.', '.']

/-- The place that a name leads to from a directory. -/
def step (place : Place) (name : Text) : Place :=
  if name = [] ∨ name = here then place
  else if name = above then place.dropLast
  else place ++ [name]

end Place

/-- A path: the names to follow from the root, and the number of bytes in which it is spelled. -/
structure Path where
  names : List Text
  size : Nat
deriving DecidableEq, Repr

namespace Path

/-- The parts of a text between slashes, without empty ones. -/
def split (t : Text) : List Text :=
  match _h : t.dropWhile (· == '/') with
  | [] => []
  | c :: rest => (c :: rest.takeWhile (· != '/')) :: split (rest.dropWhile (· != '/'))
termination_by t.length
decreasing_by
  have h1 := (List.dropWhile_sublist (· == '/') (l := t)).length_le
  have h2 := (List.dropWhile_sublist (· != '/') (l := rest)).length_le
  rw [_h] at h1
  simp only [List.length_cons] at h1
  omega

/-- The path that a text spells for someone who works in the directory `workDir`. -/
def ofText (workDir : Place) (t : Text) : Path :=
  let names := if t.getLast? = some '/' then split t ++ [[]] else split t
  ⟨if t.head? = some '/' then names else workDir ++ names, Utf8.size t⟩

/-- The path of a file in the directory of a path. A slash is put before its name unless the path
ends in one or is spelled by no character. -/
def child (p : Path) (name : Text) : Path :=
  let slash := if p.size = 0 ∨ p.names.getLast? = some [] then 0 else 1
  ⟨p.names ++ [name], p.size + slash + Utf8.size name⟩

/-- Names that say once more, by the name `.`, that the place before them is meant. -/
def restates (names : List Text) : Bool :=
  names.contains Place.here && names.all fun name => name = [] || name = Place.here

/-- The places that a path leads through, from the root to its end. -/
def places (p : Path) : List Place :=
  (List.range (p.names.length + 1)).map fun n => (p.names.take n).foldl Place.step []

end Path

/-- How many bytes a name and a path may have. Where no number is given there is no bound. -/
structure Limits where
  name : Option Nat
  path : Option Nat
deriving DecidableEq, Repr

namespace Limits

def unbounded : Limits := ⟨none, none⟩

def common : Limits := ⟨some 255, some 4095⟩

def admitsName (l : Limits) (name : Text) : Bool := l.name.all (Utf8.size name ≤ ·)

/-- A path that may be asked for: it is not too long, and no name in it holds the null character. -/
def admits (l : Limits) (p : Path) : Bool :=
  l.path.all (p.size ≤ ·) && p.names.all fun name => !name.contains '\x00'

end Limits

inductive Item
  | directory
  | file (content : Bytes)
deriving DecidableEq

/-- Why a file operation fails: nothing is there, or what is there does not allow it. -/
inductive FileError
  | missing
  | refused
deriving DecidableEq, Repr

/-- A tree of files: its items with their places. The root is always a directory. -/
structure FileTree where
  items : List (Place × Item)
  limits : Limits
deriving DecidableEq

namespace FileTree

def empty (limits : Limits) : FileTree := ⟨[], limits⟩

def at? (t : FileTree) (place : Place) : Option Item :=
  if place = [] then some .directory else t.items.lookup place

def erase (t : FileTree) (place : Place) : FileTree :=
  { t with items := t.items.filter fun i => i.1 ≠ place }

/-- The tree with an item at a place, in place of what stood there. -/
def put (t : FileTree) (place : Place) (item : Item) : FileTree :=
  { t with items := (place, item) :: (t.erase place).items }

/-- The place that is reached from the directory `place` by some names. Each name has to
follow a directory; the last one may lead to nothing. -/
def walk (t : FileTree) (place : Place) : List Text → Except FileError Place
  | [] => .ok place
  | name :: rest =>
    match t.at? place with
    | some .directory =>
      if t.limits.admitsName name then walk t (place.step name) rest else .error .refused
    | some (.file _) => .error .refused
    | none => .error .missing

def locate (t : FileTree) (path : Path) : Except FileError Place :=
  if t.limits.admits path then t.walk [] path.names else .error .refused

def item? (t : FileTree) (path : Path) : Option Item :=
  match t.locate path with
  | .ok place => t.at? place
  | .error _ => none

def read (t : FileTree) (path : Path) : Except FileError Bytes := do
  match t.at? (← t.locate path) with
  | some (.file content) => return content
  | some .directory => throw .refused
  | none => throw .missing

/-- Puts a file with the given content where a path leads; a directory is not replaced. -/
def write (t : FileTree) (path : Path) (content : Bytes) : Except FileError FileTree := do
  let place ← t.locate path
  match t.at? place with
  | some .directory => throw .refused
  | _ => return t.put place (.file content)

/-- Makes an empty file where a path leads, unless a file is there already. -/
def touch (t : FileTree) (path : Path) : Except FileError FileTree := do
  let place ← t.locate path
  match t.at? place with
  | some (.file _) => return t
  | some .directory => throw .refused
  | none => return t.put place (.file [])

/-- Takes away the file where a path leads. -/
def remove (t : FileTree) (path : Path) : Except FileError FileTree := do
  let place ← t.locate path
  match t.at? place with
  | some (.file _) => return t.erase place
  | some .directory => throw .refused
  | none => throw .missing

/-- Makes the directories that names lead to from the directory `place`, as far as they are missing.
Where a file is in the way or a name is too long the directories made before it stay. The name `.`
makes nothing, so the last directory of a path that ends in it must be there already. -/
def makeFrom (t : FileTree) (place : Place) : List Text → Except FileError Unit × FileTree
  | [] => (.ok (), t)
  | name :: rest =>
    if !t.limits.admitsName name then (.error .refused, t)
    else match t.at? (place.step name) with
    | some .directory => makeFrom t (place.step name) rest
    | some (.file _) => (.error .refused, t)
    | none =>
      if Path.restates rest then (.error .missing, t)
      else makeFrom (t.put (place.step name) .directory) (place.step name) rest

/-- Makes the directory that a path names, with the directories above it. -/
def makeDirectories (t : FileTree) (path : Path) : Except FileError Unit × FileTree :=
  if t.limits.admits path then t.makeFrom [] path.names else (.error .refused, t)

end FileTree

end KeypadCalc
