/-! Exact arithmetic on binary64 floats. A finite float is a sign and a whole number of units of
2 ^ -1074, the distance between the smallest floats; on that grid cutting off a fraction and taking
a remainder are exact, so they are computed there and carried back without rounding. -/

namespace KeypadCalc.Binary64

open Float.Model (UnpackedFloat)

/-- The number of units of 2 ^ -1074 in one. -/
def one : Nat := Nat.pow 2 1074

/-- The float carries a minus sign, as negative zero does. -/
def isNegative (v : Float) : Bool :=
  match v.toModel.unpack with
  | .finite .negative .. | .zero .negative | .infinity .negative => true
  | _ => false

/-- The magnitude of a finite float in units of 2 ^ -1074; infinities and NaN count as zero. -/
def units (v : Float) : Nat :=
  match v.toModel.unpack with
  | .finite _ mantissa exponent _ => mantissa * Nat.pow 2 (exponent + 1074).toNat
  | _ => 0

/-- The float nearest to a signed number of units of 2 ^ -1074. -/
def ofUnits (negative : Bool) (count : Nat) : Float :=
  .ofModel (.pack (.round .binary64 (if negative then .negative else .positive) count (-1074)))

def nan : Float := 0.0 / 0.0

/-- A finite float without a fraction. -/
def isWhole (v : Float) : Bool := v.isFinite && units v % one == 0

/-- The greatest whole number that is not above a finite float; infinities and NaN stay. -/
def floor (v : Float) : Float :=
  if !v.isFinite || isWhole v then v
  else if isNegative v then ofUnits true ((units v / one + 1) * one)
  else ofUnits false (units v / one * one)

/-- The nearest whole number, halves going up. -/
def halfUp (v : Float) : Float :=
  if v - floor v ≥ 0.5 then floor v + 1.0 else floor v

/-- The remainder of the division that cuts its quotient off toward zero: it has the sign of the
dividend and is exact. -/
def remainder (x y : Float) : Float :=
  if !x.isFinite || y.isNaN || y == 0.0 then nan
  else if y.isInf then x
  else ofUnits (isNegative x) (units x % units y)

end KeypadCalc.Binary64
