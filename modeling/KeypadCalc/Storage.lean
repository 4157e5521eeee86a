import KeypadCalc.Storage.FileTree
import KeypadCalc.Storage.Key

/-! Storage of values under keys: in memory, switched off, or as files in one directory of a tree.
Every operation first checks its key. An operation that changes the storage gives its outcome
together with the storage after it, since a failed one may have made directories. -/

namespace KeypadCalc

inductive Storage
  | memory (values : List (Text × Bytes))
  | disabled
  | directory (tree : FileTree) (root : Path)

namespace Storage

/-- The outcome of an operation that gives no value, with the storage after it. -/
abbrev Change := Except StorageError Unit × Storage

def get (s : Storage) (key : Text) : Except StorageError (Option Bytes) :=
  if !Key.isValid key then .error (.invalidKey key)
  else match s with
    | memory values => .ok (values.lookup key)
    | disabled => .error .disabled
    | directory tree root =>
      match tree.read (root.child (Key.fileName key)) with
      | .ok content => .ok (some content)
      | .error .missing => .ok none
      | .error .refused => .error .files

def tree? : Storage → Option FileTree
  | directory tree _ => some tree
  | _ => none

def withTree (s : Storage) (tree : FileTree) : Storage :=
  match s with
  | directory _ root => directory tree root
  | s => s

def paths (key : Text) : Storage → List Path
  | directory _ root => [root.child (Key.fileName key), root.child (Key.lockName key)]
  | _ => []

/-- Makes the storage directory and then changes the tree. -/
def changeIn (tree : FileTree) (root : Path)
    (change : FileTree → Except FileError FileTree) : Change :=
  match tree.makeDirectories root with
  | (.error _, made) => (.error .files, directory made root)
  | (.ok (), made) =>
    match change made with
    | .error _ => (.error .files, directory made root)
    | .ok changed => (.ok (), directory changed root)

/-- Puts a value under a key. A file is written at once, as if it were drafted beside its place and
renamed over it. The draft has a path of its own, whose length is not part of the model. -/
def set (s : Storage) (key : Text) (value : Bytes) : Change :=
  if !Key.isValid key then (.error (.invalidKey key), s)
  else match s with
    | memory values => (.ok (), memory ((key, value) :: values.filter fun v => v.1 ≠ key))
    | disabled => (.error .disabled, s)
    | directory tree root =>
      changeIn tree root fun made => made.write (root.child (Key.fileName key)) value

/-- Takes away the value under a key; there need not be one. -/
def delete (s : Storage) (key : Text) : Change :=
  if !Key.isValid key then (.error (.invalidKey key), s)
  else match s with
    | memory values => (.ok (), memory (values.filter fun v => v.1 ≠ key))
    | disabled => (.error .disabled, s)
    | directory tree root =>
      match tree.remove (root.child (Key.fileName key)) with
      | .ok removed => (.ok (), directory removed root)
      | .error .missing => (.ok (), s)
      | .error .refused => (.error .files, s)

/-- Takes the lock of a key and lets it go again. Files keep the lock in a file of its own. -/
def lock (s : Storage) (key : Text) : Change :=
  if !Key.isValid key then (.error (.invalidKey key), s)
  else match s with
    | directory tree root =>
      changeIn tree root fun made => made.touch (root.child (Key.lockName key))
    | _ => (.ok (), s)

end Storage

end KeypadCalc
