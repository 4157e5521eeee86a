import KeypadCalc.NumberText

/-! The entries of the history: one for each calculation that was committed. -/

namespace KeypadCalc

/-- A committed calculation: what was typed, what it gave, and when, in milliseconds since the
start of 1970. -/
structure Entry where
  expression : Text
  result : Float
  time : Int64
deriving DecidableEq

end KeypadCalc
