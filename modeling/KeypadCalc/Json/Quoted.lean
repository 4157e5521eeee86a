import KeypadCalc.Text.Hex

/-! Quoted strings of JSON texts. `quote` writes a text between quotation marks; `pieces?` takes the
content of a string up to its closing mark as a list of pieces, and `content?` joins the pieces to a
text. A string that is passed over needs pieces only, so its content may be no text at all. -/

namespace KeypadCalc.Json

/-- A part of a quoted string: a character, a UTF-16 unit given by its number, or a byte that
begins no character. -/
inductive Piece
  | char (c : Char)
  | unit (n : Nat)
  | gap
deriving DecidableEq, Repr

/-- The character that a letter after a backslash stands for. -/
def unescape? : Char → Option Char
  | '"' => some '"'
  | '\\' => some '\\'
  | '/' => some '/'
  | 'b' => some '\x08'
  | 'f' => some '\x0c'
  | 'n' => some '\n'
  | 'r' => some '\r'
  | 't' => some '\t'
  | _ => none

def hexNumber? (a b c d : Option Char) : Option Nat := do
  Text.ofDigits? 16 [← a, ← b, ← c, ← d]

/-- The pieces up to the closing quotation mark, and what comes after it. -/
def pieces? : List (Option Char) → Option (List Piece × List (Option Char))
  | some '"' :: rest => some ([], rest)
  | some '\\' :: some 'u' :: a :: b :: c :: d :: rest => do
    let n ← hexNumber? a b c d
    let (ps, after) ← pieces? rest
    return (.unit n :: ps, after)
  | some '\\' :: some e :: rest => do
    let c ← unescape? e
    let (ps, after) ← pieces? rest
    return (.char c :: ps, after)
  | some c :: rest =>
    if c.toNat < 0x20 || c == '\\' then none
    else (pieces? rest).map fun r => (.char c :: r.1, r.2)
  | none :: rest => (pieces? rest).map fun r => (.gap :: r.1, r.2)
  | [] => none

def isHighSurrogate (n : Nat) : Bool := 0xD800 ≤ n && n < 0xDC00

def isLowSurrogate (n : Nat) : Bool := 0xDC00 ≤ n && n < 0xE000

def ofSurrogates (high low : Nat) : Char :=
  .ofNat (0x10000 + (high - 0xD800) * 0x400 + (low - 0xDC00))

/-- The text that the pieces make up; a gap or a surrogate without its partner makes none. -/
def content? : List Piece → Option Text
  | [] => some []
  | .char c :: ps => (content? ps).map (c :: ·)
  | .unit n :: ps =>
    if isHighSurrogate n then
      match ps with
      | .unit low :: rest =>
        if isLowSurrogate low then (content? rest).map (ofSurrogates n low :: ·) else none
      | _ => none
    else if isLowSurrogate n then none
    else (content? ps).map (.ofNat n :: ·)
  | .gap :: _ => none

/-- A character as it is written inside a quoted string. -/
def escape (c : Char) : Text :=
  match c with
  | '"' => ['\\', '"']
  | '\\' => ['\\', '\\']
  | '\x08' => ['\\', 'b']
  | '\x0c' => ['\\', 'f']
  | '\n' => ['\\', 'n']
  | '\r' => ['\\', 'r']
  | '\t' => ['\\', 't']
  | c =>
    if c.toNat < 0x20 then
      ['\\', 'u', '0', '0', Nat.digitChar (c.toNat / 16), Nat.digitChar (c.toNat % 16)]
    else [c]

def quote (t : Text) : Text := '"' :: t.flatMap escape ++ ['"']

end KeypadCalc.Json
