import KeypadCalc.Proofs.Keypad.Points
import KeypadCalc.Proofs.Session

/-! The expression of a session that is operated on its keypad. Whatever keys are pressed and
results recalled, operators stay apart. Each number keeps one point as long as the percent key does
not put one after a point, and no longer. -/

namespace KeypadCalc

open Keypad (OnePoint OperatorsApart doublesPoint)
open NumberText

variable {t t' : Text}

/-- A text after one action on the keypad, other than dividing a number in it. -/
inductive Edits (t : Text) : Text → Prop
  | same : Edits t t
  | typed {t' : Text} {c : Char} : Keypad.typedText? t c = some t' → Edits t t'
  | dropLast : Edits t t.dropLast
  | cleared : Edits t []
  | number (v : Float) : Edits t (plain v)

theorem operatorsApart_of_edits (h : Edits t t') (ht : OperatorsApart t) : OperatorsApart t' := by
  cases h with
  | same => exact ht
  | typed htyped => exact ht.typedText? htyped
  | dropLast => exact ht.dropLast
  | cleared => exact Keypad.operatorsApart_nil
  | number v => exact Keypad.operatorsApart_plain v

theorem onePoint_of_edits (h : Edits t t') (ht : OnePoint t) : OnePoint t' := by
  cases h with
  | same => exact ht
  | typed htyped => exact ht.typedText? htyped
  | dropLast => exact ht.dropLast
  | cleared => exact Keypad.onePoint_of_count_le (Nat.zero_le 1)
  | number v => exact Keypad.onePoint_plain v

namespace Keypad

theorem edits_input (k : Keypad) (c : Char) : Edits k.expression (k.input c).expression := by
  unfold input
  split
  · rename_i t htyped
    exact .typed htyped
  · exact .same

theorem edits_commit (k : Keypad) : Edits k.expression k.commit.2.expression := by
  unfold commit
  split
  · exact .same
  · split
    · exact .same
    · exact .number _

end Keypad

namespace Session

/-- An action that is taken on the keypad, or the recall of any entry: anything but committing a
text that comes from elsewhere. -/
def Action.OnKeypad : Action → Prop
  | .commitText _ => False
  | _ => True

instance : DecidablePred Action.OnKeypad
  | .commitText _ => inferInstanceAs (Decidable False)
  | .press _ | .input _ | .backspace | .clear | .percent | .commit | .recallEntry _ | .history
  | .clearHistory => inferInstanceAs (Decidable True)

/-- The action is a percent key. -/
def Action.divides : Action → Bool
  | .press .percent | .percent => true
  | _ => false

variable {s : Session} {now : Int64} {action : Action} {steps : List (Int64 × Action)}

theorem keypad_act_of_divides (h : action.divides = true) (now : Int64) :
    (s.act now action).2.keypad = s.keypad.percent := by
  cases action with
  | press key =>
    cases key with
    | percent => exact keypad_press s now .percent
    | char | backspace | clear | equals => cases h
  | percent => exact keypad_press s now .percent
  | input | backspace | clear | commit | commitText => cases h
  | recallEntry | history | clearHistory => cases h

theorem edits_act (h : action.OnKeypad) (hdivides : action.divides = false) (now : Int64) :
    Edits s.keypad.expression (s.act now action).2.keypad.expression := by
  have hcommit : Edits s.keypad.expression (s.press now .equals).2.keypad.expression := by
    rw [keypad_press]
    exact Keypad.edits_commit s.keypad
  cases action with
  | press key =>
    cases key with
    | char c => exact Keypad.edits_input s.keypad c
    | backspace => exact .dropLast
    | clear => exact .cleared
    | percent => cases hdivides
    | equals => exact hcommit
  | input c => exact Keypad.edits_input s.keypad c
  | backspace => exact .dropLast
  | clear => exact .cleared
  | percent => cases hdivides
  | commit => exact hcommit
  | commitText t => exact absurd h id
  | recallEntry e => exact .number e.result
  | history | clearHistory => exact .same

/-- A property of expressions that is kept by whatever is done on the keypad. -/
structure KeptOnKeypad (Holds : Text → Prop) : Prop where
  edits : ∀ {t t' : Text}, Edits t t' → Holds t → Holds t'
  percent : ∀ {k : Keypad}, Holds k.expression → Holds k.percent.expression

/-- The property holds of a text that is committed from elsewhere, the blanks around it taken
off. -/
def Action.CommitsWith (Holds : Text → Prop) : Action → Prop
  | .commitText t => Holds (Text.trim t)
  | _ => True

instance (Holds : Text → Prop) [DecidablePred Holds] : DecidablePred (Action.CommitsWith Holds)
  | .commitText t => inferInstanceAs (Decidable (Holds (Text.trim t)))
  | .press _ | .input _ | .backspace | .clear | .percent | .commit | .recallEntry _ | .history
  | .clearHistory => inferInstanceAs (Decidable True)

section Kept

variable {Holds : Text → Prop} {text : Text}

theorem holds_of_committed? (h : s.committed? action = some text)
    (haction : action.CommitsWith Holds) (hs : Holds s.keypad.expression) : Holds text := by
  cases action with
  | press key =>
    cases key with
    | equals => exact Option.some.inj h ▸ hs
    | char | backspace | clear | percent => cases h
  | commit => exact Option.some.inj h ▸ hs
  | commitText t => exact Option.some.inj h ▸ haction
  | input | backspace | clear | percent | recallEntry | history | clearHistory => cases h

theorem KeptOnKeypad.act (h : KeptOnKeypad Holds) (haction : action.CommitsWith Holds)
    (hs : Holds s.keypad.expression) (now : Int64) :
    Holds (s.act now action).2.keypad.expression := by
  by_cases hkeypad : action.OnKeypad
  · cases hdivides : action.divides with
    | false => exact h.edits (edits_act hkeypad hdivides now) hs
    | true =>
      rw [keypad_act_of_divides hdivides]
      exact h.percent hs
  · cases action with
    | commitText t =>
      -- the text takes the place of the expression first, and is committed like one
      have hcommit : (s.act now (.commitText t)).2.keypad =
          (s.keypad.withText (Text.trim t)).commit.2 := keypad_press ..
      rw [hcommit]
      exact h.edits (Keypad.edits_commit _) haction
    | press | input | backspace | clear | percent | commit | recallEntry | history | clearHistory =>
      exact absurd trivial hkeypad

theorem KeptOnKeypad.run (h : KeptOnKeypad Holds)
    (hsteps : ∀ step ∈ steps, step.2.CommitsWith Holds) (hs : Holds s.keypad.expression) :
    Holds (s.run steps).keypad.expression :=
  run_invariant (fun s => Holds s.keypad.expression) h.act hsteps hs

end Kept

theorem Action.OnKeypad.commitsWith (h : action.OnKeypad) (Holds : Text → Prop) :
    action.CommitsWith Holds := by
  cases action with
  | commitText t => exact absurd h id
  | press | input | backspace | clear | percent | commit | recallEntry | history | clearHistory =>
    exact trivial

/-! ### Operators -/

theorem keptOnKeypad_operatorsApart : KeptOnKeypad OperatorsApart :=
  ⟨operatorsApart_of_edits, fun h => h.percent⟩

theorem operatorsApart_run (h : ∀ step ∈ steps, step.2.OnKeypad)
    (hs : OperatorsApart s.keypad.expression) :
    OperatorsApart (s.run steps).keypad.expression :=
  keptOnKeypad_operatorsApart.run (fun step hstep => (h step hstep).commitsWith _) hs

/-- However a new session is operated on its keypad, and whatever results are recalled, the
expression begins with no operator but a minus, and no two operators are next to each other. -/
theorem operatorsApart_run_new (history : History) (records : Bool) (steps : List (Int64 × Action))
    (h : ∀ step ∈ steps, step.2.OnKeypad) :
    OperatorsApart ((new history records).run steps).keypad.expression :=
  operatorsApart_run h Keypad.operatorsApart_nil

/-- A power of ten loses its digits, and the sign of it gives way to another operator. -/
theorem operatorsApart_run_new_of_power :
    let steps := [(0, Action.recallEntry ⟨['2'], -1e21, 0⟩), (1, .press .backspace),
      (2, .press .backspace), (3, .press (.char '×')), (4, .press (.char '7')),
      (5, .press .percent)]
    let s := (new (.new (.memory []) History.defaultKey 1) true).run steps
    (∀ step ∈ steps, step.2.OnKeypad) ∧ OperatorsApart s.keypad.expression ∧
      s.keypad.expression = ['-', '1', 'e', '*', '0', '.', '0', '7'] := by
  intro steps s
  have hkeypad : ∀ step ∈ steps, step.2.OnKeypad := by decide +kernel
  exact ⟨hkeypad, operatorsApart_run_new _ true steps hkeypad, by decide +kernel⟩

/-! ### Points -/

theorem onePoint_act_iff (h : action.OnKeypad) (hs : OnePoint s.keypad.expression) (now : Int64) :
    OnePoint (s.act now action).2.keypad.expression ↔
      (action.divides = true → doublesPoint s.keypad.expression = false) := by
  cases hdivides : action.divides with
  | false => exact iff_of_true (onePoint_of_edits (edits_act h hdivides now) hs) (by simp)
  | true =>
    rw [keypad_act_of_divides hdivides, Keypad.onePoint_percent_iff hs]
    exact ⟨fun hfalse _ => hfalse, fun hfalse => hfalse rfl⟩

/-- No percent key of a run puts a number with a point right after a point. -/
abbrev SparesPoints : Session → List (Int64 × Action) → Prop :=
  Along fun s _ action => action.divides = true → doublesPoint s.keypad.expression = false

theorem onePoint_run_take_iff (h : ∀ step ∈ steps, step.2.OnKeypad)
    (hs : OnePoint s.keypad.expression) :
    (∀ n, OnePoint (s.run (steps.take n)).keypad.expression) ↔ s.SparesPoints steps := by
  induction steps generalizing s with
  | nil => exact iff_of_true (fun n => by rw [List.take_nil]; exact hs) trivial
  | cons step steps ih =>
    obtain ⟨now, action⟩ := step
    obtain ⟨hfirst, hrest⟩ := List.forall_mem_cons.1 h
    have hact := onePoint_act_iff hfirst hs now
    constructor
    · intro hall
      have hnext := hall 1
      exact ⟨hact.1 hnext, (ih hrest hnext).1 fun n => hall (n + 1)⟩
    · rintro ⟨hfirst', hspares⟩ n
      cases n with
      | zero => exact hs
      | succ n => exact (ih hrest (hact.2 hfirst')).2 hspares n

/-- In a new session that is operated on its keypad, each number of the expression has one point at
most all along, exactly if the percent key never puts a number with a point after a point. -/
theorem onePoint_run_new_iff (history : History) (records : Bool) (steps : List (Int64 × Action))
    (h : ∀ step ∈ steps, step.2.OnKeypad) :
    (∀ n, OnePoint ((new history records).run (steps.take n)).keypad.expression) ↔
      (new history records).SparesPoints steps :=
  onePoint_run_take_iff h (Keypad.onePoint_of_count_le (Nat.zero_le 1))

/-- A number that begins with a point is divided if a hundredth of it has none. -/
theorem onePoint_run_new_of_hundreds :
    let s := new (.new (.memory []) History.defaultKey 1) true
    let steps := [(0, Action.press (.char '1')), (1, .press (.char '.')), (2, .press (.char '5')),
      (3, .press .percent), (4, .press (.char '+')), (5, .press (.char '.')),
      (6, .press (.char '3')), (7, .press (.char '0')), (8, .press (.char '0')),
      (9, .press .percent)]
    (∀ step ∈ steps, step.2.OnKeypad) ∧ s.SparesPoints steps ∧
      ∀ n, OnePoint (s.run (steps.take n)).keypad.expression := by
  intro s steps
  have hkeypad : ∀ step ∈ steps, step.2.OnKeypad := by decide +kernel
  have hspares : s.SparesPoints steps := by decide +kernel
  exact ⟨hkeypad, hspares, (onePoint_run_new_iff _ true steps hkeypad).2 hspares⟩

/-- A hundredth of the five in `.5` is put after the point. -/
theorem not_forall_onePoint_run_new :
    ¬∀ (history : History) (records : Bool) (steps : List (Int64 × Action)),
      (∀ step ∈ steps, step.2.OnKeypad) →
        OnePoint ((new history records).run steps).keypad.expression := by
  intro h
  have hpoints := h (.new (.memory []) History.defaultKey 1) true
    [(0, .press (.char '.')), (0, .press (.char '5')), (0, .press .percent)] (by decide)
  have htext : ((new (.new (.memory []) History.defaultKey 1) true).run
      [(0, .press (.char '.')), (0, .press (.char '5')), (0, .press .percent)]).keypad.expression =
        ['.', '0', '.', '0', '5'] := by
    decide +kernel
  rw [htext] at hpoints
  have hcount : ['.', '0', '.', '0', '5'].count '.' ≤ 1 :=
    hpoints [] _ [] rfl (List.all_eq_true.1 (by decide))
  exact absurd hcount (by decide)

end Session

end KeypadCalc
