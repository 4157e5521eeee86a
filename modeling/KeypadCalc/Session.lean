import KeypadCalc.History
import KeypadCalc.Keypad

/-! A session: a keypad together with the history that its results are recorded in. The history is
written after the keypad has found a value, and never read by it. -/

namespace KeypadCalc

/-- A keypad with a history. Results are recorded if `records` is set. -/
structure Session where
  keypad : Keypad
  history : History
  records : Bool

namespace Session

def new (history : History) (records : Bool) : Session := ⟨.empty, history, records⟩

def withKeypad (s : Session) (k : Keypad) : Session := { s with keypad := k }

/-- Records a value that was found for a text at the time `now`. A history that cannot be written
is no error. -/
def record (s : Session) (now : Int64) (text : Text) (v : Float) : Session :=
  if s.records then { s with history := (s.history.append ⟨text, v, now⟩).2 } else s

/-- Presses a key at the time `now`. A value that it commits is recorded with the text it came
from. -/
def press (s : Session) (now : Int64) (key : Key) :
    Except CalcError (Option Float) × Session :=
  match s.keypad.press key with
  | (.ok (some v), k) => (.ok (some v), (s.withKeypad k).record now s.keypad.expression v)
  | (outcome, k) => (outcome, s.withKeypad k)

def input (s : Session) (c : Char) : Session := s.withKeypad (s.keypad.input c)

def commit (s : Session) (now : Int64) : Except CalcError (Option Float) × Session :=
  s.press now .equals

/-- Commits a text, without the blanks around it, in place of the expression. -/
def commitText (s : Session) (now : Int64) (t : Text) :
    Except CalcError (Option Float) × Session :=
  (s.withKeypad (s.keypad.withText (Text.trim t))).commit now

def recallEntry (s : Session) (e : Entry) : Session :=
  s.withKeypad (s.keypad.recallValue e.result)

def entries (s : Session) : List Entry := s.history.entries

/-- Takes all entries away; failing to do so is no error. -/
def clearHistory (s : Session) : Session := { s with history := s.history.clear.2 }

end Session

end KeypadCalc
