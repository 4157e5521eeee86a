import KeypadCalc.Binary64

/-! Arithmetic expressions and their values. -/

namespace KeypadCalc

inductive BinaryOp
  | add
  | sub
  | mul
  | div
  | rem
deriving DecidableEq, Repr

def BinaryOp.apply : BinaryOp → Float → Float → Float
  | add, x, y => x + y
  | sub, x, y => x - y
  | mul, x, y => x * y
  | div, x, y => x / y
  | rem, x, y => Binary64.remainder x y

/-- An expression as it is read: numbers, signs in front of an expression, and operations. -/
inductive Expr
  | number (value : Float)
  | positive (e : Expr)
  | negative (e : Expr)
  | binary (op : BinaryOp) (left right : Expr)
deriving DecidableEq

/-- The value of an expression, which may be infinite or not a number. -/
def Expr.value : Expr → Float
  | number v => v
  | positive e => e.value
  | negative e => -e.value
  | binary op left right => op.apply left.value right.value

end KeypadCalc
