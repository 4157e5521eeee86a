import KeypadCalc.NumberText

/-! The tokens of an expression. A lexeme is a token with the position at which it starts. -/

namespace KeypadCalc

/-- The smallest parts of an expression. -/
inductive Token
  | number (value : Float)
  | plus
  | minus
  | times
  | divide
  | percent
  | leftParen
  | rightParen
deriving DecidableEq

structure Lexeme where
  position : Nat
  token : Token
deriving DecidableEq

namespace Token

/-- The token that a character stands for on its own. -/
def ofSymbol? : Char → Option Token
  | '+' => some plus
  | '-' => some minus
  | '*' => some times
  | '/' => some divide
  | '%' => some percent
  | '(' => some leftParen
  | ')' => some rightParen
  | _ => none

def describe : Token → String
  | number value => "number " ++ String.ofList (NumberText.inMessage value)
  | plus => "'+'"
  | minus => "'-'"
  | times => "'*'"
  | divide => "'/'"
  | percent => "'%'"
  | leftParen => "'('"
  | rightParen => "')'"

end Token

end KeypadCalc
