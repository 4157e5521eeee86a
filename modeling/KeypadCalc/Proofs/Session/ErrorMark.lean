import KeypadCalc.Proofs.Keypad.Dividing
import KeypadCalc.Proofs.Session.Separation

/-! The error mark. It is set when a text fails to be committed, and it stays as long as nothing is
done that bears on the text. So the text that is marked is the one that failed, and it would fail in
the same way again. -/

namespace KeypadCalc

namespace Keypad

open Sanitizer (isOperator operatorOf)

variable {k : Keypad} {t : Text} {c : Char} {error : CalcError} {action : Session.Action}

/-! ### Characters without a key -/

/-- The characters that there is a key for: those that can be put into a text, and the glyphs that
stand for an operator. -/
def hasKey (c : Char) : Bool := isTypable c || c == '×' || c == '÷' || c == '−'

theorem isTypable_operatorOf (c : Char) : isTypable (operatorOf c) = hasKey c := by
  unfold operatorOf
  split
  · rfl
  · rfl
  · rfl
  · rename_i htimes hover hminus
    have hglyphs : (c == '×') = false ∧ (c == '÷') = false ∧ (c == '−') = false :=
      ⟨beq_false_of_ne htimes, beq_false_of_ne hover, beq_false_of_ne hminus⟩
    simp only [hasKey, hglyphs, Bool.or_false]

theorem typedText?_eq_none_iff : typedText? t c = none ↔ hasKey c = false := by
  rw [← isTypable_operatorOf, typedText?, isTypable]
  generalize operatorOf c = d
  by_cases hdigit : d.isDigit = true
  · simp [hdigit]
  by_cases hpoint : d = '.'
  · simp [hpoint]
  by_cases hop : isOperator d = true
  · simp [hdigit, hpoint, hop]
  · simp [hdigit, hpoint, hop]

theorem input_of_not_hasKey (h : hasKey c = false) (k : Keypad) : k.input c = k := by
  rw [input, typedText?_eq_none_iff.2 h]

/-! ### What an action does to the mark -/

/-- A keypad is marked because its text failed with an error, as it would again. -/
structure FailedWith (k : Keypad) (error : CalcError) : Prop where
  failed : k.failed = true
  nonempty : k.expression ≠ []
  evaluate : Evaluation.evaluate k.expression = .error error

theorem FailedWith.commit_eq (h : k.FailedWith error) : k.commit = (.error error, k) := by
  rw [commit, if_neg h.nonempty, h.evaluate]
  simp only [← h.failed]

/-- The action types a character without a key, divides where there is no number that can be read,
or reads or clears the history. -/
def idle (k : Keypad) : Session.Action → Bool
  | .press (.char c) | .input c => !hasKey c
  | .press .percent | .percent => (dividend? k.expression).isNone
  | .history | .clearHistory => true
  | _ => false

/-- What comes of the mark of a keypad `k`: an action fails and marks the text, or it takes the mark
away, or it changes nothing. An idle action changes nothing, and no other one does, unless there is
no text. -/
inductive Marks (k : Keypad) (idle : Bool) : Except CalcError (Option Float) × Keypad → Prop
  | fails {k' : Keypad} {error : CalcError} : idle = false → k'.FailedWith error →
      Marks k idle (.error error, k')
  | clears {v? : Option Float} {k' : Keypad} : (idle = true → k.expression = []) →
      k'.failed = false → Marks k idle (.ok v?, k')
  | keeps {v? : Option Float} : (idle = false → k.expression = []) → Marks k idle (.ok v?, k)

theorem marks_input (k : Keypad) (c : Char) : Marks k (!hasKey c) (.ok none, k.input c) := by
  cases hkey : hasKey c with
  | false =>
    rw [input_of_not_hasKey hkey]
    exact .keeps (by simp)
  | true =>
    refine .clears (by simp) ?_
    unfold input
    split
    · rfl
    · rename_i hnone
      rw [typedText?_eq_none_iff.1 hnone] at hkey
      cases hkey

theorem marks_percent (k : Keypad) :
    Marks k (dividend? k.expression).isNone (.ok none, k.percent) := by
  rcases percent_cases k with ⟨hnil, heq⟩ | ⟨hnone, heq⟩ | ⟨front, v, hsome, heq⟩
  · rw [heq]
    exact .clears (fun _ => hnil) rfl
  · rw [heq]
    exact .keeps (by simp [hnone])
  · rw [heq]
    exact .clears (by simp [hsome]) rfl

theorem marks_commit (k : Keypad) : Marks k false k.commit := by
  unfold commit
  split
  · rename_i hnil
    exact .keeps fun _ => hnil
  · rename_i hnil
    cases hvalue : Evaluation.evaluate k.expression with
    | error error => exact .fails rfl ⟨rfl, hnil, hvalue⟩
    | ok v => exact .clears (by simp) rfl

theorem marks_commit_withText (k : Keypad) (t : Text) : Marks k false (k.withText t).commit := by
  have hcommit := marks_commit (k.withText t)
  generalize (k.withText t).commit = after at hcommit ⊢
  cases hcommit with
  | fails hidle hfailed => exact .fails hidle hfailed
  | clears hidle hclear => exact .clears (by simp) hclear
  | keeps => exact .clears (by simp) rfl

theorem marks_act (k : Keypad) (action : Session.Action) :
    Marks k (k.idle action) (k.act action) := by
  cases action with
  | press key =>
    cases key with
    | char c => exact marks_input k c
    | percent => exact marks_percent k
    | equals => exact marks_commit k
    | backspace | clear => exact .clears (by simp [idle]) rfl
  | input c => exact marks_input k c
  | percent => exact marks_percent k
  | commit => exact marks_commit k
  | commitText t => exact marks_commit_withText k (Text.trim t)
  | backspace | clear | recallEntry => exact .clears (by simp [idle]) rfl
  | history | clearHistory => exact .keeps (by simp [idle])

theorem failedWith_of_act (h : (k.act action).1 = .error error) :
    (k.act action).2.FailedWith error := by
  have hmarks := marks_act k action
  generalize k.act action = after at h hmarks
  cases hmarks with
  | fails hidle hfailed =>
    cases h
    exact hfailed
  | clears | keeps => cases h

/-- After an action that does not fail there is a mark if there was one and the action is idle. -/
theorem failed_act_iff {v? : Option Float} (h : (k.act action).1 = .ok v?)
    (hk : k.failed = true → k.expression ≠ []) :
    (k.act action).2.failed = true ↔ k.failed = true ∧ k.idle action = true := by
  have hmarks := marks_act k action
  generalize k.act action = after at h hmarks
  cases hmarks with
  | fails => cases h
  | clears hidle hclear =>
    rw [hclear]
    exact iff_of_false (by simp) fun hboth => hk hboth.1 (hidle hboth.2)
  | keeps hidle =>
    refine ⟨fun hfailed => ⟨hfailed, ?_⟩, And.left⟩
    by_contra hne
    exact hk hfailed (hidle (by simpa using hne))

theorem act_of_idle (hne : k.expression ≠ []) (h : k.idle action = true) :
    (∃ v?, (k.act action).1 = .ok v?) ∧ (k.act action).2 = k := by
  have hmarks := marks_act k action
  rw [h] at hmarks
  generalize k.act action = after at hmarks
  cases hmarks with
  | fails hidle => cases hidle
  | clears hidle => exact absurd (hidle rfl) hne
  | @keeps v? => exact ⟨⟨v?, rfl⟩, rfl⟩

end Keypad

namespace Session

variable {s after : Session} {steps since : List (Int64 × Action)} {error : CalcError}

/-! ### Runs -/

/-- None of some actions fails. -/
abbrev Succeeds : Session → List (Int64 × Action) → Prop :=
  Along fun s now action => ∃ v?, (s.act now action).1 = .ok v?

/-- Each of some actions is idle when it is taken. -/
abbrev Idles : Session → List (Int64 × Action) → Prop :=
  Along fun s _ action => s.keypad.idle action = true

/-- The last one of some actions that fail: it gives `error` and leaves the session `after`, and the
actions `since` follow it. -/
inductive FailsLast : Session → List (Int64 × Action) → CalcError → Session →
    List (Int64 × Action) → Prop
  | here {s : Session} {now : Int64} {action : Action} {error : CalcError}
      {since : List (Int64 × Action)} : (s.act now action).1 = .error error →
      (s.act now action).2.Succeeds since →
      FailsLast s ((now, action) :: since) error (s.act now action).2 since
  | later {s after : Session} {now : Int64} {action : Action} {error : CalcError}
      {steps since : List (Int64 × Action)} :
      FailsLast (s.act now action).2 steps error after since →
      FailsLast s ((now, action) :: steps) error after since

theorem succeeds_or_failsLast (s : Session) (steps : List (Int64 × Action)) :
    s.Succeeds steps ∨ ∃ error after since, s.FailsLast steps error after since := by
  induction steps generalizing s with
  | nil => exact .inl trivial
  | cons step steps ih =>
    obtain ⟨now, action⟩ := step
    rcases ih (s.act now action).2 with hrest | ⟨error, after, since, hlast⟩
    · cases houtcome : (s.act now action).1 with
      | error error => exact .inr ⟨error, _, _, .here houtcome hrest⟩
      | ok v? => exact .inl ⟨⟨v?, houtcome⟩, hrest⟩
    · exact .inr ⟨error, after, since, .later hlast⟩

theorem FailsLast.spec (h : s.FailsLast steps error after since) :
    s.run steps = after.run since ∧ after.keypad.FailedWith error ∧ after.Succeeds since := by
  induction h with
  | @here s now action error since hfails hsince =>
    obtain ⟨houtcome, hkeypad⟩ := act_keypad s now action
    refine ⟨rfl, ?_, hsince⟩
    rw [hkeypad]
    exact Keypad.failedWith_of_act (houtcome.symm.trans hfails)
  | later _ ih => exact ih

/-- As long as no action fails, a mark stays exactly while all actions are idle. -/
theorem failed_run_iff (hs : s.keypad.failed = true → s.keypad.expression ≠ [])
    (h : s.Succeeds steps) :
    (s.run steps).keypad.failed = true ↔ s.keypad.failed = true ∧ s.Idles steps := by
  induction steps generalizing s with
  | nil => exact (and_iff_left trivial).symm
  | cons step steps ih =>
    obtain ⟨now, action⟩ := step
    obtain ⟨⟨v?, hfirst⟩, hrest⟩ := h
    obtain ⟨houtcome, hkeypad⟩ := act_keypad s now action
    have hmark := Keypad.failed_act_iff (houtcome.symm.trans hfirst) hs
    rw [← hkeypad] at hmark
    have hnext : (s.act now action).2.keypad.failed = true →
        (s.act now action).2.keypad.expression ≠ [] := by
      intro hfailed
      obtain ⟨hbefore, hidle⟩ := hmark.1 hfailed
      rw [hkeypad, (Keypad.act_of_idle (hs hbefore) hidle).2]
      exact hs hbefore
    calc
      _ ↔ (s.act now action).2.keypad.failed = true ∧ (s.act now action).2.Idles steps :=
        ih hnext hrest
      _ ↔ _ := by rw [hmark, and_assoc]; rfl

theorem keypad_run_of_idles (hne : s.keypad.expression ≠ []) (h : s.Idles steps) :
    (s.run steps).keypad = s.keypad := by
  refine h.run (fun s' => s'.keypad = s.keypad) ?_ rfl
  intro s' now action hidle hsame
  rw [← hsame] at hne ⊢
  exact (act_keypad s' now action).2.trans (Keypad.act_of_idle hne hidle).2

theorem commit_of_failedWith (h : s.keypad.FailedWith error) (now : Int64) :
    s.commit now = (.error error, s) := by
  have hcommit : s.keypad.press .equals = (.error error, s.keypad) := h.commit_eq
  rw [commit, press, hcommit]
  rfl

theorem isError_display (k : Keypad) : k.display.isError = k.failed := by
  unfold Keypad.display
  cases k.failed <;> rfl

/-- However a new session was operated, an error that is shown is that of the expression: there is
one, it has the error that the last action to fail gave, and committing it again gives that error
and changes nothing at all. If no error is shown then no action failed, or after the last one that
did an action was taken that was not idle. -/
theorem isError_run_new (history : History) (records : Bool) (steps : List (Int64 × Action)) :
    let start := new history records
    let s := start.run steps
    (s.keypad.display.isError = true →
      ∃ error after since, start.FailsLast steps error after since ∧ after.Idles since ∧
        s.keypad.expression ≠ [] ∧ Evaluation.evaluate s.keypad.expression = .error error ∧
        ∀ now, s.commit now = (.error error, s)) ∧
    (s.keypad.display.isError = false →
      start.Succeeds steps ∨
        ∃ error after since, start.FailsLast steps error after since ∧ ¬after.Idles since) := by
  intro start s
  rw [isError_display]
  rcases succeeds_or_failsLast start steps with hall | ⟨error, after, since, hlast⟩
  · have hunmarked : s.keypad.failed ≠ true := fun hfailed => by
      have hnew : start.keypad.failed = true → start.keypad.expression ≠ [] := nofun
      cases ((failed_run_iff hnew hall).1 hfailed).1
    exact ⟨fun hfailed => absurd hfailed hunmarked, fun _ => .inl hall⟩
  · obtain ⟨hrun, hfailed, hsince⟩ := hlast.spec
    have hmark : s.keypad.failed = true ↔ after.Idles since := by
      rw [show s = after.run since from hrun, failed_run_iff (fun _ => hfailed.nonempty) hsince]
      exact and_iff_right hfailed.failed
    refine ⟨fun hs => ?_, fun hs => .inr ⟨error, after, since, hlast, fun hidles => ?_⟩⟩
    · have hidles := hmark.1 hs
      have hfailed' : s.keypad.FailedWith error := by
        rw [show s = after.run since from hrun, keypad_run_of_idles hfailed.nonempty hidles]
        exact hfailed
      exact ⟨error, after, since, hlast, hidles, hfailed'.nonempty, hfailed'.evaluate,
        commit_of_failedWith hfailed'⟩
    · rw [hmark.2 hidles] at hs
      cases hs

/-- A division without a divisor fails. The mark outlives a letter, a percent key and an emptied
history, and goes with the operator. -/
theorem isError_run_new_of_open_division :
    let start := new (.new (.memory []) History.defaultKey 1) true
    let steps := [(1, Action.commitText ['7']), (2, .press (.char '÷')), (3, .commit),
      (4, .input 'x'), (5, .press .percent), (6, .clearHistory)]
    let s := start.run steps
    (s.keypad.display.isError = true ∧ s.keypad.expression = ['7', '/'] ∧
      ∀ now, s.commit now = (.error (.malformed ⟨2, .unexpectedEnd⟩), s)) ∧
    ((start.run (steps ++ [(7, .backspace)])).keypad.display.isError = false ∧
      ∃ error after since,
        start.FailsLast (steps ++ [(7, .backspace)]) error after since ∧ ¬after.Idles since) := by
  intro start steps s
  have hmarked : s.keypad.display.isError = true := by decide +kernel
  have hexpression : s.keypad.expression = ['7', '/'] := by decide +kernel
  have hunmarked : (start.run (steps ++ [(7, .backspace)])).keypad.display.isError = false := by
    decide +kernel
  obtain ⟨hstays, -⟩ := isError_run_new (.new (.memory []) History.defaultKey 1) true steps
  obtain ⟨-, hgoes⟩ := isError_run_new (.new (.memory []) History.defaultKey 1) true
    (steps ++ [(7, .backspace)])
  refine ⟨⟨hmarked, hexpression, ?_⟩, hunmarked, ?_⟩
  · obtain ⟨error, -, -, -, -, -, hevaluate, hcommit⟩ := hstays hmarked
    have herror : Evaluation.evaluate ['7', '/'] = .error (.malformed ⟨2, .unexpectedEnd⟩) := by
      decide +kernel
    rw [show (start.run steps).keypad.expression = ['7', '/'] from hexpression, herror] at hevaluate
    cases hevaluate
    exact hcommit
  · refine (hgoes hunmarked).resolve_left ?_
    rintro ⟨-, -, ⟨v?, hcommitted⟩, -⟩
    have hfails : ((start.run (steps.take 2)).act 3 .commit).1 =
        .error (.malformed ⟨2, .unexpectedEnd⟩) := by decide +kernel
    exact nomatch hfails.symm.trans hcommitted

end Session

end KeypadCalc
