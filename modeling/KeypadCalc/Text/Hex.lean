import KeypadCalc.Text.Blank

/-! Hexadecimal digits, in letters of either case. -/

namespace KeypadCalc.Text

def hexValue? (c : Char) : Option Nat :=
  if '0' ≤ c ∧ c ≤ '9' then some (c.toNat - '0'.toNat)
  else if 'a' ≤ c ∧ c ≤ 'f' then some (c.toNat - 'a'.toNat + 10)
  else if 'A' ≤ c ∧ c ≤ 'F' then some (c.toNat - 'A'.toNat + 10)
  else none

/-- The number with the given digits in a base of at most sixteen. -/
def ofDigits? (base : Nat) (digits : Text) : Option Nat :=
  digits.foldlM (fun n c => do
    let d ← hexValue? c
    if d < base then some (n * base + d) else none) 0

end KeypadCalc.Text
