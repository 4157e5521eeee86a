import KeypadCalc.History
import KeypadCalc.Toml.Document

/-! The settings of the calculator. They are read from a TOML document with the tables `history`
and `logging`, in which nothing else may stand; what is missing takes its default. -/

namespace KeypadCalc

structure HistoryConfig where
  enabled : Bool := true
  maxEntries : Nat := History.defaultCapacity
  key : Text := History.defaultKey
  dataDir : Option Text := none
deriving DecidableEq

structure Config where
  history : HistoryConfig := {}
  logLevel : Text := ['w', 'a', 'r', 'n']
deriving DecidableEq

/-- Why a document gives no settings: it cannot be decoded, or a setting has a value that cannot be
used. -/
inductive ConfigError
  | undecodable
  | noEntries
  | invalidKey (key : Text)
deriving DecidableEq

def ConfigError.message : ConfigError → String
  | undecodable => "TOML parse error"
  | noEntries => "history.max_entries must be at least 1"
  | invalidKey key =>
    "history.key must only use letters, digits, '_', '-' and '.': "
      ++ (StorageError.invalidKey key).message

namespace Config

open Toml (Value Entries)

/-! ### Decoding -/

/-- The values of the given members: those of a table by name, where no other name may stand, or
those of an array by place. -/
def members? (names : List Text) : Value → Option (List (Option Value))
  | .table _ es =>
    if es.all fun e => names.contains e.1 then some (names.map fun name => es.lookup name) else none
  | .array items => some ((List.range names.length).map fun i => items[i]?)
  | _ => none

def decodeOr (decode : Value → Option α) (default : α) : Option Value → Option α
  | none => some default
  | some v => decode v

def boolean? : Value → Option Bool
  | .boolean b => some b
  | _ => none

/-- The value of a whole number of 64 bits without a sign. -/
def count? : Value → Option Nat
  | .integer base digits => do
    let n ← Value.wholeNumber? base digits
    if 0 ≤ n ∧ n < UInt64.size then some n.toNat else none
  | _ => none

def text? : Value → Option Text
  | .string t => some t
  | _ => none

/-- The settings of the history that a value stands for. -/
def history? (v : Value) : Option HistoryConfig := do
  let default : HistoryConfig := {}
  match ← members? ["enabled".toList, "max_entries".toList, "key".toList, "data_dir".toList] v with
  | [enabled, maxEntries, key, dataDir] =>
    return {
      enabled := ← decodeOr boolean? default.enabled enabled
      maxEntries := ← decodeOr count? default.maxEntries maxEntries
      key := ← decodeOr text? default.key key
      dataDir := ← decodeOr (fun v => (text? v).map some) default.dataDir dataDir }
  | _ => none

/-- The log level that a value stands for. -/
def logLevel? (v : Value) : Option Text := do
  match ← members? ["level".toList] v with
  | [level] => decodeOr text? ({} : Config).logLevel level
  | _ => none

/-- The settings that the entries of a document stand for. -/
def decode? (es : Entries) : Option Config := do
  let default : Config := {}
  match ← members? ["history".toList, "logging".toList] (.table .header es) with
  | [history, logging] =>
    return {
      history := ← decodeOr history? default.history history
      logLevel := ← decodeOr logLevel? default.logLevel logging }
  | _ => none

/-! ### Validation -/

/-- Admits settings with room for an entry and with a key that storage accepts. -/
def validate (c : Config) : Except ConfigError Config :=
  if c.history.maxEntries = 0 then .error .noEntries
  else if Key.isValid c.history.key then .ok c
  else .error (.invalidKey c.history.key)

/-- The settings that a document gives. -/
def parse (t : Text) : Except ConfigError Config :=
  match (Toml.parse? t).bind decode? with
  | none => .error .undecodable
  | some c => c.validate

/-- The history that the settings ask for, in a storage. -/
def historyIn (c : Config) (storage : Storage) : History :=
  .new storage c.history.key c.history.maxEntries

end Config

end KeypadCalc
