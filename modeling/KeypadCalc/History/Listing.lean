import KeypadCalc.History.Entry

/-! The history as it is shown: newest entry first, numbered from one. -/

namespace KeypadCalc.Entry

def numbered (es : List Entry) : List (Nat × Entry) :=
  es.reverse.zipIdx.map fun e => (e.2 + 1, e.1)

def withNumber? (es : List Entry) (n : Nat) : Option Entry :=
  if n = 0 then none else es.reverse[n - 1]?

/-- The line for an entry: its number, at least three characters wide, the text and the result. -/
def line (number : Nat) (e : Entry) : String :=
  let digits := Decimal.digits number
  String.ofList (List.replicate (3 - digits.length) ' ' ++ digits) ++ ". "
    ++ String.ofList e.expression ++ " = " ++ String.ofList (NumberText.display e.result) ++ "\n"

def listing (es : List Entry) : String :=
  if es.isEmpty then "No history yet\n"
  else String.join ((numbered es).map fun e => line e.1 e.2)

end KeypadCalc.Entry
