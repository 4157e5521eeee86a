import KeypadCalc.Evaluation
import KeypadCalc.Text.DecimalDigit

/-! The keypad: the expression that is being typed, the last result, and whether the last attempt
to commit failed. Each key changes the keypad by a rule of its own, and the display shows either the
value of the expression so far or an error mark. -/

namespace KeypadCalc

inductive Key
  | char (c : Char)
  | backspace
  | clear
  | percent
  | equals
deriving DecidableEq, Repr

/-- What the calculator remembers between keys. -/
structure Keypad where
  expression : Text
  lastResult : Option Float
  failed : Bool
deriving DecidableEq

/-- What the screen shows beside the expression. -/
structure Display where
  result : Text
  isError : Bool
deriving DecidableEq

namespace Keypad

open Decimal (Numeral.value?)
open Sanitizer (isOperator operatorOf)

def empty : Keypad := ⟨[], none, false⟩

/-- The expression `t` in place of the current one, without an error mark. -/
def withText (k : Keypad) (t : Text) : Keypad := { k with expression := t, failed := false }

/-! ### Typing -/

/-- The end of a text after its last operator. -/
def lastOperand (t : Text) : Text := (t.reverse.takeWhile fun c => !isOperator c).reverse

/-- A text with a digit typed at its end; a zero that stands alone gives way. -/
def withDigit (t : Text) (c : Char) : Text := if t = ['0'] then [c] else t ++ [c]

/-- A text with a point typed at its end, unless the operand there has one. -/
def withPoint (t : Text) : Text := if (lastOperand t).contains '.' then t else t ++ ['.']

/-- A text with an operator typed at its end. It takes the place of an operator there; at the start
only a minus is admitted. -/
def withOperator (t : Text) (c : Char) : Text :=
  if t = [] ∨ t = ['-'] then if c = '-' then ['-'] else t
  else if t.getLast?.any isOperator then t.dropLast ++ [c]
  else t ++ [c]

/-- The text after a character is typed, unless the keypad has no such key. Display glyphs stand
for their operators. -/
def typedText? (t : Text) (c : Char) : Option Text :=
  let c := operatorOf c
  if c.isDigit then some (withDigit t c)
  else if c = '.' then some (withPoint t)
  else if isOperator c then some (withOperator t c)
  else if c = '(' ∨ c = ')' then some (t ++ [c])
  else none

def input (k : Keypad) (c : Char) : Keypad :=
  match typedText? k.expression c with
  | some t => k.withText t
  | none => k

def backspace (k : Keypad) : Keypad := k.withText k.expression.dropLast

/-! ### The percent key -/

/-- A text is a numeral of some script: perhaps a minus, digits, and perhaps a point and digits. -/
def isNumeral (t : Text) : Bool :=
  let unsigned := if t.head? = some '-' then t.tail else t
  let fraction := unsigned.dropWhile Text.isDecimalDigit
  (unsigned.head?.any Text.isDecimalDigit) &&
    match fraction with
    | [] => true
    | point :: digits => point == '.' && !digits.isEmpty && digits.all Text.isDecimalDigit

/-- A text divided before the longest numeral that it ends in. -/
def splitNumeral? : Text → Option (Text × Text)
  | [] => none
  | c :: rest =>
    if isNumeral (c :: rest) then some ([], c :: rest)
    else (splitNumeral? rest).map fun s => (c :: s.1, s.2)

/-- Divides the number at the end of the expression by 100. An empty expression becomes zero; one
that ends in no number that can be read stays. -/
def percent (k : Keypad) : Keypad :=
  if k.expression = [] then k.withText ['0']
  else match splitNumeral? k.expression with
    | none => k
    | some (front, numeral) =>
      match Numeral.value? numeral with
      | none => k
      | some v => k.withText (front ++ NumberText.plain (v / 100.0))

/-! ### Results -/

/-- Evaluates the expression. Its value takes its place; on an error the expression stays and is
marked. An empty expression is left alone. -/
def commit (k : Keypad) : Except CalcError (Option Float) × Keypad :=
  if k.expression = [] then (.ok none, k)
  else match Evaluation.evaluate k.expression with
    | .error e => (.error e, { k with failed := true })
    | .ok v => (.ok (some v), ⟨NumberText.plain v, some v, false⟩)

def recallValue (k : Keypad) (v : Float) : Keypad := k.withText (NumberText.plain v)

/-- What a key does, and what it gives: the value if it committed one. -/
def press (k : Keypad) : Key → Except CalcError (Option Float) × Keypad
  | .char c => (.ok none, k.input c)
  | .backspace => (.ok none, k.backspace)
  | .clear => (.ok none, empty)
  | .percent => (.ok none, k.percent)
  | .equals => k.commit

/-! ### The screen -/

/-- What stands for a value that there is not yet. -/
def pending : Text := ['…']

/-- What stands for a value that could not be found. -/
def errorMark : Text := ['E', 'r', 'r', 'o', 'r']

/-- The value of a text as the screen shows it. -/
def previewText (t : Text) : Text :=
  if t = [] then ['0'] else (Evaluation.preview t).getD pending

def display (k : Keypad) : Display :=
  if k.failed then ⟨errorMark, true⟩ else ⟨previewText k.expression, false⟩

end Keypad

end KeypadCalc
