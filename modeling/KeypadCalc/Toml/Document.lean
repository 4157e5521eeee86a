import KeypadCalc.Toml.Table
import KeypadCalc.Toml.Token

/-! Reading TOML documents from their tokens. Brackets are counted off a budget, on which the
reading of values recurs; loops over tokens carry a bound on their steps, which is the number of
tokens at hand. -/

namespace KeypadCalc.Toml

/-- Takes something off the front of tokens and leaves the rest. -/
abbrev Reader (α : Type) := List Token → Option (α × List Token)

/-- The number of brackets that a value may stand in. -/
def maxNesting : Nat := 80

/-- The number of parts that a dotted key may have. -/
def maxKeyParts : Nat := 80

def skipSpace : List Token → List Token
  | .space _ :: rest => skipSpace rest
  | ts => ts

/-- Tokens without the blanks and line ends at their front. -/
def skipLines : List Token → List Token
  | .space _ :: rest | .newline :: rest => skipLines rest
  | ts => ts

/-! ### Keys -/

/-- The characters of a key without quotes. -/
def isKeyChar (c : Char) : Bool := c.isAlphanum || c == '_' || c == '-'

def simpleKey? : Token → Option Text
  | .bare t => if !t.isEmpty && t.all isKeyChar then some t else none
  | .string t false => some t
  | _ => none

/-- The parts of a dotted key, at most so many, with blanks allowed around each. -/
def keyWithin? : Nat → Reader (List Text)
  | 0, _ => none
  | parts + 1, ts =>
    match skipSpace ts with
    | [] => none
    | token :: rest => do
      let key ← simpleKey? token
      match skipSpace rest with
      | .dot :: rest => do
        let (keys, rest) ← keyWithin? parts rest
        return (key :: keys, rest)
      | rest => return ([key], rest)

def key? : Reader (List Text) := keyWithin? maxKeyParts

/-! ### Values -/

/-- The spelling of a value without quotes, and the tokens after it. Blanks belong to it if more of
it follows them, as a time follows a date. -/
def spelling : List Token → Text × List Token
  | .bare t :: rest => before t (spelling rest)
  | .dot :: rest => before ['.'] (spelling rest)
  | .space s :: .bare t :: rest => before (s ++ t) (spelling rest)
  | rest => ([], rest)
where
  /-- The spelling with a text before it. -/
  before (t : Text) (r : Text × List Token) : Text × List Token := (t ++ r.1, r.2)

def bare? : Reader Value := fun ts =>
  (Value.ofBare? (spelling ts).1).map (·, (spelling ts).2)

/-- The items of an array up to its closing bracket. A comma may follow the last one. -/
def items? (value : Reader Value) : Nat → Reader (List Value)
  | 0, _ => none
  | bound + 1, ts =>
    match skipLines ts with
    | .closeSquare :: rest => some ([], rest)
    | ts => do
      let (v, rest) ← value ts
      match skipLines rest with
      | .comma :: rest => do
        let (vs, rest) ← items? value bound rest
        return (v :: vs, rest)
      | .closeSquare :: rest => return ([v], rest)
      | _ => none

/-- A key with its value. The tokens that `skip` passes over may stand before and after the sign
between them. -/
def pair? (skip : List Token → List Token) (value : Reader Value) :
    Reader (List Text × Value) := fun ts => do
  let (key, rest) ← key? ts
  match skip rest with
  | .equals :: rest => do
    let (v, rest) ← value (skip rest)
    return ((key, v), rest)
  | _ => none

/-- The entries of an inline table up to its closing brace, added to those before them. -/
def entries? (value : Reader Value) (es : Entries) : Nat → Reader Entries
  | 0, _ => none
  | bound + 1, ts =>
    match skipLines ts with
    | .closeCurly :: rest => some (es, rest)
    | ts => do
      let ((key, v), rest) ← pair? skipLines value ts
      let es ← es.add key v
      match skipLines rest with
      | .comma :: rest => entries? value es bound rest
      | .closeCurly :: rest => return (es, rest)
      | _ => none

def value? : (budget : Nat) → Reader Value
  | _, .string t _ :: rest => some (.string t, rest)
  | budget + 1, .openSquare :: rest =>
    (items? (value? budget) rest.length rest).map fun r => (.array r.1, r.2)
  | budget + 1, .openCurly :: rest =>
    (entries? (value? budget) [] rest.length rest).map fun r => (.table .inline r.1, r.2)
  | _, ts => bare? ts

/-! ### Documents -/

/-- What has been read of a document: all its entries, and the path of the table that comes next
entries go to. -/
structure Draft where
  entries : Entries
  path : List Text

/-- Tokens after the end of a line, where only blanks may stand before it. -/
def afterLine? (ts : List Token) : Option (List Token) :=
  match skipSpace ts with
  | [] => some []
  | .newline :: rest => some rest
  | _ => none

/-- One line of a document, and what is left of the tokens. -/
def line? (draft : Draft) : Reader Draft := fun ts =>
  match skipSpace ts with
  | .openSquare :: .openSquare :: rest => do
    match ← key? rest with
    | (path, .closeSquare :: .closeSquare :: rest) =>
      return (⟨← draft.entries.openItem path, path⟩, ← afterLine? rest)
    | _ => none
  | .openSquare :: rest => do
    match ← key? rest with
    | (path, .closeSquare :: rest) =>
      return (⟨← draft.entries.openTable path, path⟩, ← afterLine? rest)
    | _ => none
  | [] => some (draft, [])
  | .newline :: rest => some (draft, rest)
  | ts => do
    let ((key, v), rest) ← pair? skipSpace (value? maxNesting) ts
    let entries ← draft.entries.within false (Entries.add key v) draft.path
    return (⟨entries, draft.path⟩, ← afterLine? rest)

/-- The rest of a document, within a number of lines. -/
def lines? (draft : Draft) : Nat → List Token → Option Entries
  | _, [] => some draft.entries
  | 0, _ => none
  | bound + 1, ts => do
    let (draft, rest) ← line? draft ts
    lines? draft bound rest

def parse? (t : Text) : Option Entries := do
  let tokens ← tokens? t
  lines? ⟨[], []⟩ tokens.length tokens

end KeypadCalc.Toml
