import KeypadCalc.Text.Blank
import KeypadCalc.Decimal

/-! Decimal numerals as they are typed: digits with at most one point, on either side of which the
digits may be missing, but not on both. A numeral is worth the float nearest to it. -/

namespace KeypadCalc.Decimal.Numeral

/-- The longest front of a text that is digits, then perhaps a point and digits, and what follows
it. -/
def split (t : Text) : Text × Text :=
  let whole := t.takeWhile Char.isDigit
  match t.dropWhile Char.isDigit with
  | '.' :: rest => (whole ++ '.' :: rest.takeWhile Char.isDigit, rest.dropWhile Char.isDigit)
  | rest => (whole, rest)

def ofDigits (whole fraction : Text) : Decimal :=
  ⟨Nat.ofDigitChars 10 (whole ++ fraction) 0, -fraction.length⟩

def decimal? (t : Text) : Option Decimal :=
  let whole := t.takeWhile Char.isDigit
  match t.dropWhile Char.isDigit with
  | [] => if whole.isEmpty then none else some (ofDigits whole [])
  | '.' :: fraction =>
    if fraction.all Char.isDigit && !(whole.isEmpty && fraction.isEmpty) then
      some (ofDigits whole fraction)
    else none
  | _ => none

/-- The float nearest to a numeral, which may have a minus sign. -/
def value? : Text → Option Float
  | '-' :: t => (decimal? t).map fun d => -d.toFloat
  | t => (decimal? t).map toFloat

end KeypadCalc.Decimal.Numeral
