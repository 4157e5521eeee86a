import KeypadCalc.Text.Blank

/-! The lines of the console. A line that begins with a colon is a command; any other line is keys
to press. -/

namespace KeypadCalc.Console

inductive Command
  | keys (t : Text)
  | clear
  | back
  | percent
  | history
  | use (n : Nat)
  | clearHistory
  | quit
  | unknown (line : Text)
deriving DecidableEq, Repr

/-- The numbers that a count can have: those of 64 bits. -/
def maxCount : Nat := UInt64.size - 1

/-- The count that a word stands for: digits, perhaps with a plus before them. -/
def count? (word : Text) : Option Nat :=
  let digits := if word.head? = some '+' then word.tail else word
  let n := Nat.ofDigitChars 10 digits 0
  if !digits.isEmpty && digits.all Char.isDigit && n ≤ maxCount then some n else none

/-- The command with the given words; of the words after `use` only the first one counts. -/
def Command.ofWords? : List Text → Option Command
  | [word] =>
    match String.ofList word with
    | "c" | "clear" => some .clear
    | "back" => some .back
    | "%" | "percent" => some .percent
    | "history" => some .history
    | "clear-history" => some .clearHistory
    | "q" | "quit" => some .quit
    | _ => none
  | word :: number :: _ =>
    if word = "use".toList then
      match count? number with
      | some n => if 0 < n then some (.use n) else none
      | none => none
    else none
  | [] => none

/-- What a line asks for. Blanks around it do not matter. -/
def Command.ofLine (line : Text) : Command :=
  match Text.trim line with
  | ':' :: action => (ofWords? (Text.words action)).getD (.unknown (':' :: action))
  | t => .keys t

end KeypadCalc.Console
