import KeypadCalc.Expr.Grammar
import KeypadCalc.Expr.Lexer

/-! Reading an expression from its lexemes. A reader takes an expression off the front of a list of
lexemes and leaves a strictly shorter list, which is why reading ends. Signs and parentheses are
counted off a budget, so that recursion is on the budget. -/

namespace KeypadCalc.Expr

/-- The number of signs and parentheses that a number may stand under. -/
def maxDepth : Nat := 256

/-- An expression taken off the front of `ls` with the lexemes after it. -/
abbrev Reading (ls : List Lexeme) := { r : Expr × List Lexeme // r.2.length < ls.length }

/-- A reader of expressions at one level of the grammar. -/
abbrev Reader := (ls : List Lexeme) → Except SyntaxError (Reading ls)

/-- The position at which the lexemes start, in a text of length `size`. -/
def start (size : Nat) : List Lexeme → Nat
  | [] => size
  | l :: _ => l.position

/-- Extends `left` by operands as long as an operator comes next. -/
def extend (operator? : Token → Option BinaryOp) (operand : Reader) (left : Expr)
    (ls : List Lexeme) :
    Except SyntaxError { r : Expr × List Lexeme // r.2.length ≤ ls.length } :=
  match ls with
  | [] => .ok ⟨(left, []), Nat.le_refl _⟩
  | l :: rest =>
    match operator? l.token with
    | none => .ok ⟨(left, l :: rest), Nat.le_refl _⟩
    | some op => do
      let ⟨(right, after), h⟩ ← operand rest
      let ⟨r, h'⟩ ← extend operator? operand (.binary op left right) after
      return ⟨r, by simp only [List.length_cons] at h h' ⊢; omega⟩
termination_by ls.length
decreasing_by simp only [List.length_cons] at h ⊢; omega

/-- Operands with operators between them, grouped from the left. -/
def chain (operator? : Token → Option BinaryOp) (operand : Reader) : Reader := fun ls => do
  let ⟨(left, after), h⟩ ← operand ls
  let ⟨r, h'⟩ ← extend operator? operand left after
  return ⟨r, Nat.lt_of_le_of_lt h' h⟩

/-- Products with additive operators between them, of factors with multiplicative ones. -/
def sumOf (factor : Reader) : Reader :=
  chain Token.additive? (chain Token.multiplicative? factor)

/-- The expression `e` with the closing parenthesis that has to follow it taken off. -/
def closed (size : Nat) (e : Expr) : Reader
  | [] => .error ⟨size, .unclosedParen⟩
  | l :: rest =>
    if l.token = .rightParen then .ok ⟨(e, rest), Nat.lt_succ_self _⟩
    else .error ⟨l.position, .missingParen l.token⟩

/-- A factor in a text of length `size`, with at most `budget` signs and parentheses above each
number in it. -/
def factor (size : Nat) : (budget : Nat) → Reader
  | _, [] => .error ⟨size, .unexpectedEnd⟩
  | 0, l :: rest =>
    match l.token with
    | .number v => .ok ⟨(.number v, rest), Nat.lt_succ_self _⟩
    | .plus | .minus | .leftParen => .error ⟨start size rest, .tooDeep⟩
    | other => .error ⟨l.position, .missingNumber other⟩
  | budget + 1, l :: rest =>
    match l.token with
    | .number v => .ok ⟨(.number v, rest), Nat.lt_succ_self _⟩
    | .plus => do
      let ⟨(e, after), h⟩ ← factor size budget rest
      return ⟨(.positive e, after), Nat.lt_succ_of_lt h⟩
    | .minus => do
      let ⟨(e, after), h⟩ ← factor size budget rest
      return ⟨(.negative e, after), Nat.lt_succ_of_lt h⟩
    | .leftParen => do
      let ⟨(e, after), h⟩ ← sumOf (factor size budget) rest
      let ⟨r, h'⟩ ← closed size e after
      return ⟨r, by simp only [List.length_cons] at h h' ⊢; omega⟩
    | other => .error ⟨l.position, .missingNumber other⟩

def ofLexemes (size : Nat) (ls : List Lexeme) : Except SyntaxError Expr := do
  match ← sumOf (factor size maxDepth) ls with
  | ⟨(e, []), _⟩ => return e
  | ⟨(_, l :: _), _⟩ => .error ⟨l.position, .surplus l.token⟩

def parse (t : Text) : Except SyntaxError Expr := do
  ofLexemes t.length (← Lexeme.ofText 0 t)

end KeypadCalc.Expr
