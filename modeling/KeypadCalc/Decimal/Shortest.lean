import KeypadCalc.Decimal

/-! The decimal with the fewest digits that reads back as a given float. On the grid of decimals
with `n` digits only the two neighbours of the exact value can be nearest to it, so the search
tries both on the grid of one digit, then of two, up to seventeen; of two that read back the nearer
one is taken. -/

namespace KeypadCalc.Decimal

/-- Where a value goes that lies halfway between two decimals. -/
inductive Tie
  | even
  | up
deriving DecidableEq, Repr

/-- The number of decimal digits of a whole number. The last ones are cut off 32 at a time. -/
def digitCount (n : Nat) : Nat :=
  if h : Nat.pow 10 32 ≤ n then digitCount (n / Nat.pow 10 32) + 32 else (Nat.toDigits 10 n).length
termination_by n
decreasing_by exact Nat.div_lt_self (Nat.lt_of_lt_of_le (by decide) h) (by decide)

/-- The decimal reads back as the magnitude of the float. -/
def readsBack (v : Float) (d : Decimal) : Bool := d.toFloat = v.abs

/-- The lower of two neighbours on a grid of the given step is the one to take for `value`. -/
def takesLower (tie : Tie) (value step : Nat) : Bool :=
  let below := value % step
  2 * below < step || (2 * below == step && tie == .even && value / step % 2 == 0)

/-- Of two neighbours the one that reads back; if both do, the one that is to be taken. -/
def nearer? (lowerReads upperReads takesLower : Bool) (lower upper : Decimal) : Option Decimal :=
  match lowerReads, upperReads with
  | true, true => some (if takesLower then lower else upper)
  | true, false => some lower
  | false, true => some upper
  | false, false => none

/-- The decimal that reads back as a float and is nearest to it among those whose last digit stands
`dropped` places before the last one of the exact value, if there is one. -/
def onGrid? (tie : Tie) (v : Float) (dropped : Nat) : Option Decimal :=
  let value := scaled v
  let step := Nat.pow 10 dropped
  let lower : Decimal := ⟨value / step, dropped - places⟩
  let upper : Decimal := ⟨value / step + 1, dropped - places⟩
  nearer? (readsBack v lower) (readsBack v upper) (takesLower tie value step) lower upper

/-- The same number with the zeros at the end of the significand moved into the exponent. -/
def trimZeros (d : Decimal) : Decimal :=
  if h : d.significand ≠ 0 ∧ d.significand % 10 = 0 then
    trimZeros ⟨d.significand / 10, d.exponent + 1⟩
  else d
termination_by d.significand
decreasing_by exact Nat.div_lt_self (Nat.pos_of_ne_zero h.1) (by decide)

/-- The shortest decimal that reads back as the magnitude of a finite float, and of those the
nearest. Where no seventeen digits read back the exact value stands in. -/
def shortest (tie : Tie) (v : Float) : Decimal :=
  let digits := digitCount (scaled v)
  trimZeros (((List.range 17).findSome? fun n => onGrid? tie v (digits - (n + 1))).getD (ofFloat v))

end KeypadCalc.Decimal
