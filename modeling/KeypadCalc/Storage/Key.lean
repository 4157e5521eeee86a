import KeypadCalc.Text.Blank

/-! Storage keys, and the ways in which storage can fail. -/

namespace KeypadCalc

inductive StorageError
  | files
  | disabled
  | invalidKey (key : Text)
deriving DecidableEq

namespace StorageError

def message : StorageError → String
  | files => "storage I/O failed"
  | disabled => "storage unavailable: storage is disabled"
  | invalidKey key => "invalid storage key '" ++ String.ofList key ++ "'"

end StorageError

namespace Key

/-- The characters a key is made of: ASCII letters and digits, underscore, hyphen and point. -/
def isKeyChar (c : Char) : Bool := c.isAlphanum || c == '_' || c == '-' || c == '.'

/-- A key has characters, all of them admitted, and does not begin with a point. -/
def isValid (key : Text) : Bool := !key.isEmpty && key.head? != some '.' && key.all isKeyChar

def fileName (key : Text) : Text := key ++ ['.', 'j', 's', 'o', 'n']

def lockName (key : Text) : Text := '.' :: key ++ ['.', 'l', 'o', 'c', 'k']

end Key

end KeypadCalc
