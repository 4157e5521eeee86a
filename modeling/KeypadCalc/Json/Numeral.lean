import KeypadCalc.Text.Blank
import KeypadCalc.Decimal

/-! The numbers of JSON texts as they are spelled, and the floats and whole numbers read from them.

A float is read with 64-bit and floating-point arithmetic only: as many leading digits as fit into
64 bits make the significand, which is then scaled by its power of ten in steps of at most
`10 ^ 308`, each of them rounded. The result may therefore differ from the nearest float. -/

namespace KeypadCalc.Json

/-- A number as it is spelled: its sign, the digits before and after the point, and its power of
ten, if it has one. -/
structure Numeral where
  negative : Bool
  whole : Text
  fraction : Text
  power : Option Int
deriving DecidableEq, Repr

namespace Numeral

def digitValue (c : Char) : Nat := c.toNat - '0'.toNat

/-- The significand extended by digits as long as it fits into 64 bits, and the digits left. -/
def absorb (significand : Nat) : Text → Nat × Text
  | [] => (significand, [])
  | d :: ds =>
    let next := significand * 10 + digitValue d
    if next < UInt64.size then absorb next ds else (significand, d :: ds)

def powerOfTen (n : Nat) : Float := (⟨1, n⟩ : Decimal).toFloat

/-- The greatest power of ten that a float can be scaled by in one step. -/
def maxPower : Nat := 308

/-- A float times a power of ten, unless that is infinite. -/
def scale (v : Float) (power : Int) : Option Float :=
  if power.natAbs ≤ maxPower then
    if 0 ≤ power then
      let scaled := v * powerOfTen power.natAbs
      if scaled.isInf then none else some scaled
    else some (v / powerOfTen power.natAbs)
  else if v == 0.0 then some v
  else if 0 ≤ power then none
  else scale (v / powerOfTen maxPower) (power + maxPower)
termination_by power.natAbs
decreasing_by simp only [maxPower] at *; omega

/-- The float read from a number, unless it is out of range. -/
def toFloat? (n : Numeral) : Option Float :=
  let (kept, dropped) := absorb 0 n.whole
  let (significand, cut) := absorb kept n.fraction
  let power := dropped.length - (n.fraction.length - cut.length : Nat) + n.power.getD 0
  (scale significand.toUInt64.toFloat power).map fun v => if n.negative then -v else v

/-- The whole number that is spelled without point and power. Minus zero is none. -/
def toInt? (n : Numeral) : Option Int :=
  let value : Nat := Nat.ofDigitChars 10 n.whole 0
  if !n.fraction.isEmpty || n.power.isSome || (n.negative && value == 0) then none
  else some (if n.negative then -value else value)

end Numeral

end KeypadCalc.Json
