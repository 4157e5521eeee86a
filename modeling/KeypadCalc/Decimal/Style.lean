import KeypadCalc.Text.Blank
import KeypadCalc.Decimal.Shortest

/-! Writing floats as text. All styles write the shortest digits that read back; a `Style` says
when they are written positionally, where halfway cases go, and how the special values look. -/

namespace KeypadCalc.Decimal

/-- The choices that tell one number format from another. -/
structure Style where
  /-- Where a value halfway between two shortest decimals goes. -/
  tie : Tie
  /-- The powers of ten of the first digit for which all places are written out. -/
  positional : Int → Bool
  /-- Whole numbers that are written out end in a point and a zero. -/
  keepsPoint : Bool
  /-- Zero keeps its sign. -/
  signsZero : Bool
  nan : Text
  infinity : Text
  negativeInfinity : Text

def digits (n : Nat) : Text := Nat.toDigits 10 n

def integerText : Int → Text
  | .ofNat n => digits n
  | .negSucc n => '-' :: digits (n + 1)

def leadingPower (d : Decimal) : Int := d.exponent + digitCount d.significand - 1

/-- All places written out. -/
def positionalText (keepsPoint : Bool) (d : Decimal) : Text :=
  let ds := digits d.significand
  if 0 ≤ d.exponent then
    ds ++ List.replicate d.exponent.toNat '0' ++ if keepsPoint then ['.', '0'] else []
  else
    let fraction := (-d.exponent).toNat
    if fraction < ds.length then
      ds.take (ds.length - fraction) ++ '.' :: ds.drop (ds.length - fraction)
    else '0' :: '.' :: (List.replicate (fraction - ds.length) '0' ++ ds)

/-- One digit before the point and the power of ten, with its sign, after an `e`. -/
def exponentText (d : Decimal) : Text :=
  let power := d.leadingPower
  let sign := if power < 0 then '-' else '+'
  let mantissa :=
    match digits d.significand with
    | first :: second :: rest => first :: '.' :: second :: rest
    | short => short
  mantissa ++ 'e' :: sign :: digits power.natAbs

namespace Style

def decimalText (style : Style) (d : Decimal) : Text :=
  if style.positional d.leadingPower then positionalText style.keepsPoint d else exponentText d

def text (style : Style) (v : Float) : Text :=
  if v.isNaN then style.nan
  else if v.isInf then
    if Binary64.isNegative v then style.negativeInfinity else style.infinity
  else if v == 0.0 then
    let zero := style.decimalText ⟨0, 0⟩
    if style.signsZero && Binary64.isNegative v then '-' :: zero else zero
  else
    let magnitude := style.decimalText (shortest style.tie v)
    if Binary64.isNegative v then '-' :: magnitude else magnitude

end Style

end KeypadCalc.Decimal
