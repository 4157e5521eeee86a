import KeypadCalc.Toml.Value

/-! Adding to the tables of a TOML document. A key may be given a value once, and a table may be
defined once: what may be added to a table depends on how it came into being. -/

namespace KeypadCalc.Toml

/-- The keys of a table with their values, in the order in which they came. -/
abbrev Entries := List (Text × Value)

namespace Entries

def update (change : Option Value → Option Value) (key : Text) : Entries → Option Entries
  | [] => (change none).map fun v => [(key, v)]
  | (k, v) :: rest =>
    if k = key then (change (some v)).map fun v => (k, v) :: rest
    else (update change key rest).map ((k, v) :: ·)

/-- Changes the table that a path leads to, making the tables that are missing on the way. The
parts of a dotted key lead only through tables that dotted keys have made. -/
def within (dotted : Bool) (change : Entries → Option Entries) :
    List Text → Entries → Option Entries
  | [], es => change es
  | key :: path, es =>
    let enter : Option Value → Option Value
      | none =>
        (within dotted change path []).map (.table (if dotted then .dotted else .implied))
      | some (.table origin inner) =>
        if origin = .inline ∨ dotted ∧ origin ≠ .dotted then none
        else (within dotted change path inner).map (.table origin)
      | some (.tables all) =>
        if dotted then none
        else all.getLast?.bind fun last =>
          (within dotted change path last).map fun last => .tables (all.dropLast ++ [last])
      | some _ => none
    update enter key es

/-- Gives a value to a dotted key, which must not have one. -/
def add (path : List Text) (v : Value) (es : Entries) : Option Entries := do
  let key ← path.getLast?
  within true (update (fun old => if old.isSome then none else some v) key) path.dropLast es

/-- Opens the table of a header: a new one, or one that was only implied so far. -/
def openTable (path : List Text) (es : Entries) : Option Entries := do
  let key ← path.getLast?
  let define : Option Value → Option Value
    | none => some (.table .header [])
    | some (.table .implied inner) => some (.table .header inner)
    | some _ => none
  within false (update define key) path.dropLast es

/-- Opens a new table in the array of tables of a header. -/
def openItem (path : List Text) (es : Entries) : Option Entries := do
  let key ← path.getLast?
  let extend : Option Value → Option Value
    | none => some (.tables [[]])
    | some (.tables all) => some (.tables (all ++ [[]]))
    | some _ => none
  within false (update extend key) path.dropLast es

end Entries

end KeypadCalc.Toml
