import KeypadCalc.Expr.Token

/-! Why an expression has no value, and the words in which that is reported. -/

namespace KeypadCalc

inductive Flaw
  | unexpectedCharacter (c : Char)
  | lonePoint
  | invalidNumber (literal : Text)
  | unexpectedEnd
  | missingNumber (found : Token)
  | unclosedParen
  | missingParen (found : Token)
  | surplus (found : Token)
  | tooDeep
deriving DecidableEq

/-- A flaw and the position where it shows; the length of the text stands for its end. -/
structure SyntaxError where
  position : Nat
  flaw : Flaw
deriving DecidableEq

inductive CalcError
  | invalidCharacter (c : Char)
  | malformed (error : SyntaxError)
  | nonFinite
deriving DecidableEq

def Flaw.message : Flaw → String
  | unexpectedCharacter c => "unexpected character '" ++ c.toString ++ "'"
  | lonePoint => "expected digits around '.'"
  | invalidNumber literal => "invalid number '" ++ String.ofList literal ++ "'"
  | unexpectedEnd => "unexpected end of expression"
  | missingNumber found => "expected a number but found " ++ found.describe
  | unclosedParen => "unclosed '('"
  | missingParen found => "expected ')' but found " ++ found.describe
  | surplus found => "unexpected " ++ found.describe
  | tooDeep => "expression nested too deeply"

namespace CalcError

def message : CalcError → String
  | invalidCharacter c => "invalid character '" ++ c.toString ++ "'"
  | malformed e => "syntax error at position " ++ toString e.position ++ ": " ++ e.flaw.message
  | nonFinite => "result is not a finite number"

/-- The error arose after every character had been accepted. -/
def isEvaluationError : CalcError → Bool
  | invalidCharacter _ => false
  | _ => true

end CalcError

end KeypadCalc
