import KeypadCalc.Text.Blank

/-! Texts as bytes in UTF-8. `scan` reads any bytes and leaves a gap for each byte that begins no
character; `decode?` accepts bytes without gaps only. -/

namespace KeypadCalc

abbrev Bytes := List UInt8

namespace Utf8

def encode (t : Text) : Bytes := t.flatMap String.utf8EncodeChar

def size (t : Text) : Nat := t.foldl (fun n c => n + c.utf8Size) 0

/-- The character that begins a list of bytes. No character has more than four. -/
def first? (bytes : Bytes) : Option Char :=
  (bytes.take 4).toByteArray.utf8DecodeChar? 0

/-- The characters of a list of bytes, with `none` for each byte that begins no character. -/
def scan : Bytes → List (Option Char)
  | [] => []
  | b :: rest =>
    match first? (b :: rest) with
    | some c => some c :: scan (rest.drop (c.utf8Size - 1))
    | none => none :: scan rest
termination_by bytes => bytes.length
decreasing_by
  · simp only [List.length_drop, List.length_cons]; omega
  · simp only [List.length_cons]; omega

/-- The text with the given bytes. -/
def decode? (bytes : Bytes) : Option Text := (scan bytes).mapM id

end Utf8

end KeypadCalc
