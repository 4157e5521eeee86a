import KeypadCalc.Binary64

/-! Decimal numbers `significand · 10 ^ exponent`: the float nearest to one, the one that equals a
float, and rounding to a number of places. A binary64 float has at most 1074 binary places, hence
at most 1074 decimal ones, so each finite float is a decimal exactly. -/

namespace KeypadCalc

/-- The number `significand · 10 ^ exponent`. -/
structure Decimal where
  significand : Nat
  exponent : Int
deriving DecidableEq, Repr

namespace Decimal

/-- The float nearest to a decimal, a tie going to the even mantissa. -/
def toFloat (d : Decimal) : Float :=
  .ofModel (.ofScientific d.significand d.exponent)

/-- The number of places that every finite float fits into. -/
def places : Nat := 1074

/-- The magnitude of a finite float times `10 ^ places`, a whole number. -/
def scaled (v : Float) : Nat := Binary64.units v * Nat.pow 5 places

def ofFloat (v : Float) : Decimal := ⟨scaled v, -places⟩

/-- The quotient of two numbers, rounded to the nearest whole number, a tie going to the even
one. -/
def divideToEven (n d : Nat) : Nat :=
  let q := n / d
  let r := n % d
  if 2 * r < d then q else if 2 * r = d then q + q % 2 else q + 1

/-- A finite float rounded to `n` decimal places, a tie going to the even digit, and then to the
nearest float; the sign stays. -/
def roundPlaces (n : Nat) (v : Float) : Float :=
  let rounded : Decimal := ⟨divideToEven (scaled v) (Nat.pow 10 (places - n)), -n⟩
  if Binary64.isNegative v then -rounded.toFloat else rounded.toFloat

end Decimal

end KeypadCalc
