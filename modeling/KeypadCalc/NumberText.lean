import KeypadCalc.Decimal.Style
import KeypadCalc.Decimal.Numeral

/-! How the calculator writes numbers: `plain` is the form in which a result becomes the next
expression, `display` the form in which it is shown, and `inMessage` the form error messages use. -/

namespace KeypadCalc.NumberText

open Decimal

/-- Written out from 1e-6 up to below 1e21, with a power of ten elsewhere; zero has no sign. -/
def plainStyle : Style where
  tie := .up
  positional := fun power => -6 ≤ power && power ≤ 20
  keepsPoint := false
  signsZero := false
  nan := ['N', 'a', 'N']
  infinity := ['I', 'n', 'f', 'i', 'n', 'i', 't', 'y']
  negativeInfinity := ['-', 'I', 'n', 'f', 'i', 'n', 'i', 't', 'y']

def messageStyle : Style where
  tie := .up
  positional := fun _ => true
  keepsPoint := false
  signsZero := true
  nan := ['N', 'a', 'N']
  infinity := ['i', 'n', 'f']
  negativeInfinity := ['-', 'i', 'n', 'f']

def plain (v : Float) : Text := plainStyle.text v

def inMessage (v : Float) : Text := messageStyle.text v

def displayPlaces : Nat := 10

/-- The text on the display: whole numbers and numbers with a power of ten in their plain form, all
others after rounding to `displayPlaces` places, so that noise in the last bits does not show. -/
def display (v : Float) : Text :=
  let text := plain v
  if !v.isFinite || Binary64.isWhole v || text.contains 'e' then text
  else plain (roundPlaces displayPlaces v)

end KeypadCalc.NumberText
