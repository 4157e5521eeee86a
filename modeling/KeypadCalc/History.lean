import KeypadCalc.History.Codec
import KeypadCalc.Storage

/-! The history of committed calculations, kept under one key of a storage. It holds at most
`capacity` entries and drops the oldest ones beyond that. What cannot be read counts as empty. -/

namespace KeypadCalc

/-- A history: where it is stored, and how many entries it keeps. -/
structure History where
  storage : Storage
  key : Text
  capacity : Nat
  capacity_pos : 0 < capacity

namespace History

def defaultKey : Text := "simple_calc_history_v1".toList

def defaultCapacity : Nat := 20

/-- The history under a key of a storage; it keeps one entry at least. -/
def new (storage : Storage) (key : Text) (capacity : Nat) : History :=
  ⟨storage, key, max capacity 1, by omega⟩

/-- The stored entries, oldest first. -/
def entries (h : History) : List Entry :=
  match h.storage.get h.key with
  | .ok (some bytes) => (Entry.decodeAll? bytes).getD []
  | _ => []

def lastEntries (n : Nat) (es : List Entry) : List Entry := es.drop (es.length - n)

def withChange (h : History) (change : Storage.Change) : Except StorageError Unit × History :=
  (change.1, { h with storage := change.2 })

/-- The history after a change to its storage that is made under its lock. -/
def locked (h : History) (change : History → Storage.Change) :
    Except StorageError Unit × History :=
  match h.withChange (h.storage.lock h.key) with
  | (.error e, h) => (.error e, h)
  | (.ok (), h) => h.withChange (change h)

/-- Adds an entry and drops the oldest ones beyond the capacity. -/
def append (h : History) (e : Entry) : Except StorageError Unit × History :=
  h.locked fun h =>
    h.storage.set h.key (Entry.encodeAll (lastEntries h.capacity (h.entries ++ [e])))

def clear (h : History) : Except StorageError Unit × History :=
  h.locked fun h => h.storage.delete h.key

end History

end KeypadCalc
