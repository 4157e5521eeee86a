import KeypadCalc.Proofs.Session

/-! What is calculated and what is stored. The keypad of a session goes its own way: each action
changes it by the rules of the keypad, and what comes of recording a result is not asked for. So two
sessions that show the same keep showing the same, however and wherever they store results. -/

namespace KeypadCalc

/-- What can be seen of an action: its outcome, and the keypad after it. -/
structure Observation where
  outcome : Except CalcError (Option Float)
  expression : Text
  lastResult : Option Float
  display : Display

namespace Keypad

/-- An outcome together with what a keypad then shows. -/
def observation (outcome : Except CalcError (Option Float)) (k : Keypad) : Observation :=
  ⟨outcome, k.expression, k.lastResult, k.display⟩

/-- What an action on a session comes to for a keypad alone, which has no history to read or
clear. -/
def act (k : Keypad) : Session.Action → Except CalcError (Option Float) × Keypad
  | .press key => k.press key
  | .input c => (.ok none, k.input c)
  | .backspace => (.ok none, k.backspace)
  | .clear => (.ok none, empty)
  | .percent => (.ok none, k.percent)
  | .commit => k.commit
  | .commitText t => (k.withText (Text.trim t)).commit
  | .recallEntry e => (.ok none, k.recallValue e.result)
  | .history => (.ok none, k)
  | .clearHistory => (.ok none, k)

/-- What is seen of a keypad, action by action. -/
def observe (k : Keypad) : List Session.Action → List Observation
  | [] => []
  | action :: actions =>
    (k.act action).2.observation (k.act action).1 :: (k.act action).2.observe actions

end Keypad

namespace Session

variable {s s₁ s₂ : Session}

/-- What is seen of a session, action by action. -/
def observe (s : Session) : List (Int64 × Action) → List Observation
  | [] => []
  | (now, action) :: steps =>
    (s.act now action).2.keypad.observation (s.act now action).1 ::
      (s.act now action).2.observe steps

/-- Pressing a key does to the keypad of a session what it does to a keypad. -/
theorem press_keypad (s : Session) (now : Int64) (key : Key) :
    (s.press now key).1 = (s.keypad.press key).1 ∧
      (s.press now key).2.keypad = (s.keypad.press key).2 := by
  refine ⟨?_, keypad_press s now key⟩
  unfold press
  split
  · rename_i hpress
    rw [hpress]
  · rename_i hpress
    rw [hpress]

/-- So does every action, whatever the history is. -/
theorem act_keypad (s : Session) (now : Int64) (action : Action) :
    (s.act now action).1 = (s.keypad.act action).1 ∧
      (s.act now action).2.keypad = (s.keypad.act action).2 := by
  cases action with
  | press key => exact press_keypad s now key
  | input c => exact ⟨rfl, rfl⟩
  | backspace => exact press_keypad s now .backspace
  | clear => exact press_keypad s now .clear
  | percent => exact press_keypad s now .percent
  | commit => exact press_keypad s now .equals
  | commitText t =>
    exact press_keypad (s.withKeypad (s.keypad.withText (Text.trim t))) now .equals
  | recallEntry e => exact ⟨rfl, rfl⟩
  | history => exact ⟨rfl, rfl⟩
  | clearHistory => exact ⟨rfl, rfl⟩

theorem observe_eq (s : Session) (steps : List (Int64 × Action)) :
    s.observe steps = s.keypad.observe (steps.map Prod.snd) := by
  induction steps generalizing s with
  | nil => rfl
  | cons step steps ih =>
    obtain ⟨now, action⟩ := step
    obtain ⟨houtcome, hkeypad⟩ := act_keypad s now action
    show _ :: _ = _ :: _
    rw [ih, houtcome, hkeypad]

/-- Two sessions with the same expression, last result, and error mark give the same outcomes and
show the same after each of any actions, whatever they store their results in, under which key and
how many of them, whether they record results at all, and at which times the actions are taken. -/
theorem observe_eq_of_keypad_eq (hkeypad : s₁.keypad = s₂.keypad)
    (steps₁ steps₂ : List (Int64 × Action))
    (hactions : steps₁.map Prod.snd = steps₂.map Prod.snd) :
    s₁.observe steps₁ = s₂.observe steps₂ := by
  rw [observe_eq, observe_eq, hkeypad, hactions]

/-- A session that records in memory, and one that would record under a key that is not admitted in
a directory whose place a file has taken. The first one has a result to list in the end. -/
theorem observe_eq_of_keypad_eq_beside_file :
    let s₁ := Session.new (.new (.memory []) History.defaultKey 20) true
    let taken := Storage.directory ⟨[([['d']], .file [])], .common⟩ ⟨[['d']], 1⟩
    let s₂ := Session.new (.new taken ['/'] 1) true
    let actions := [Action.commitText ['2', '÷', '4'], .input '/', .press (.char '0'), .commit]
    let steps₁ := actions.map fun action => ((1, action) : Int64 × Action)
    let steps₂ := actions.map fun action => ((2, action) : Int64 × Action)
    s₁.keypad = s₂.keypad ∧ s₁.observe steps₁ = s₂.observe steps₂ ∧
      (s₁.run steps₁).entries = [⟨['2', '÷', '4'], 0.5, 1⟩] ∧ (s₂.run steps₂).entries = [] ∧
      (s₂.run steps₂).keypad.failed = true := by
  intro s₁ taken s₂ actions steps₁ steps₂
  have hkeypad : s₁.keypad = s₂.keypad := rfl
  refine ⟨hkeypad, observe_eq_of_keypad_eq hkeypad steps₁ steps₂ rfl, ?_, ?_, ?_⟩
  · decide +kernel
  · decide +kernel
  · decide +kernel

end Session

end KeypadCalc
