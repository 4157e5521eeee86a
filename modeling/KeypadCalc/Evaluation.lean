import KeypadCalc.Expr.Parser
import KeypadCalc.Expr.Sanitizer

/-! Evaluating what was typed. A committed value is finite and rounded to twelve decimal places; the
preview shows the value before that rounding. -/

namespace KeypadCalc.Evaluation

/-- The distance from one to the next float, 2 ^ -52. -/
def epsilon : Float := .ofBits 0x3CB0000000000000

/-- The scale that moves twelve decimal places in front of the point. -/
def roundingScale : Float := 1e12

/-- A value rounded to twelve decimal places; where scaling overflows, an infinity. -/
def roundResult (v : Float) : Float :=
  Binary64.halfUp ((v + epsilon) * roundingScale) / roundingScale

/-- The finite value of a text before rounding, or nothing if only blanks are left of it. -/
def unrounded (raw : Text) : Except CalcError (Option Float) := do
  let text ← Sanitizer.sanitize raw
  if Text.isBlankText text then return none
  match Expr.parse text with
  | .error e => throw (.malformed e)
  | .ok e => if e.value.isFinite then return some e.value else throw .nonFinite

/-- The value of a text: zero for a blank one, otherwise finite and rounded. -/
def evaluate (raw : Text) : Except CalcError Float := do
  match ← unrounded raw with
  | none => return 0.0
  | some v => if (roundResult v).isFinite then return roundResult v else throw .nonFinite

def preview (raw : Text) : Option Text :=
  match unrounded raw with
  | .ok (some v) => some (NumberText.display v)
  | _ => none

end KeypadCalc.Evaluation
