import KeypadCalc.Proofs.Evaluation
import KeypadCalc.Proofs.History
import KeypadCalc.Session

/-! Sessions under a run of actions. Only a value that was found is recorded, with the text it was
found for, and only clearing the history changes it otherwise. What is stored stays readable. -/

namespace KeypadCalc

/-! ### What is stored -/

namespace History

variable {h : History} {e : Entry}

/-- What the storage holds under the key of a history. -/
def stored (h : History) : Except StorageError (Option Bytes) := h.storage.get h.key

/-- Nothing is stored, or what is stored can be read. -/
def IsReadable (h : History) : Prop :=
  h.stored = .ok none ∨
    ∃ bytes es, h.stored = .ok (some bytes) ∧ Entry.decodeAll? bytes = some es

theorem stored_append (hw : h.Works) (e : Entry) :
    (h.append e).2.stored =
      .ok (some (Entry.encodeAll ((h.entries ++ [e]).rtake h.capacity))) := by
  obtain ⟨s, hready, happend, hfound⟩ := append_found hw e
  rw [happend, stored, ← hfound]
  exact hready.get_eq hw.1

theorem isReadable_append (hw : h.Works) (he : e.result.isFinite = true) :
    (h.append e).2.IsReadable :=
  .inr ⟨_, _, stored_append hw e, Entry.decodeAll?_encodeAll (isFinite_of_mem_kept h he)⟩

theorem isReadable_clear (hw : h.Works) : h.clear.2.IsReadable := by
  obtain ⟨s, hready, hclear, hfound⟩ := clear_found hw
  refine .inl ?_
  rw [hclear, stored, ← hfound]
  exact hready.get_eq hw.1

end History

namespace Session

/-! ### Actions -/

inductive Action
  | press (key : Key)
  | input (c : Char)
  | backspace
  | clear
  | percent
  | commit
  | commitText (t : Text)
  | recallEntry (e : Entry)
  | history
  | clearHistory

/-- The outcome of an action that is taken at the time `now`, with the session after it. -/
def act (s : Session) (now : Int64) : Action → Except CalcError (Option Float) × Session
  | .press key => s.press now key
  | .input c => (.ok none, s.input c)
  | .backspace => s.press now .backspace
  | .clear => s.press now .clear
  | .percent => s.press now .percent
  | .commit => s.commit now
  | .commitText t => s.commitText now t
  | .recallEntry e => (.ok none, s.recallEntry e)
  | .history => (.ok none, s)
  | .clearHistory => (.ok none, s.clearHistory)

/-- The session after some actions, each taken at a time of its own. -/
def run (s : Session) (steps : List (Int64 × Action)) : Session :=
  steps.foldl (fun s step => (s.act step.1 step.2).2) s

/-- The text that an action commits, if it is one that commits. -/
def committed? (s : Session) : Action → Option Text
  | .press .equals => some s.keypad.expression
  | .commit => some s.keypad.expression
  | .commitText t => some (Text.trim t)
  | _ => none

variable {s : Session} {now : Int64} {action : Action} {text : Text}

/-- What committing the text of a keypad does: it is left alone if it is empty, marked if it has no
value, and otherwise gives way to its value, which is recorded. -/
theorem commit_cases (s : Session) (k : Keypad) (now : Int64) :
    (k.expression = [] ∧ (s.withKeypad k).commit now = (.ok none, s.withKeypad k)) ∨
      (∃ error, Evaluation.evaluate k.expression = .error error ∧
        (s.withKeypad k).commit now = (.error error, s.withKeypad { k with failed := true })) ∨
      ∃ v, Evaluation.evaluate k.expression = .ok v ∧
        (s.withKeypad k).commit now = (.ok (some v),
          (s.withKeypad ⟨NumberText.plain v, some v, false⟩).record now k.expression v) := by
  have hkeypad : (s.withKeypad k).keypad = k := rfl
  simp only [commit, press, Keypad.press, Keypad.commit, hkeypad]
  by_cases hnil : k.expression = []
  · refine .inl ⟨hnil, ?_⟩
    rw [if_pos hnil]
    rfl
  · refine .inr ?_
    rw [if_neg hnil]
    cases Evaluation.evaluate k.expression with
    | error error => exact .inl ⟨error, rfl, rfl⟩
    | ok v => exact .inr ⟨v, rfl, rfl⟩

theorem act_of_committed? (now : Int64) (h : s.committed? action = some text) :
    ∃ k : Keypad, k.expression = text ∧ k.lastResult = s.keypad.lastResult ∧
      s.act now action = (s.withKeypad k).commit now := by
  cases action with
  | press key =>
    cases key with
    | equals => exact ⟨s.keypad, Option.some.inj h, rfl, rfl⟩
    | char | backspace | clear | percent => cases h
  | commit => exact ⟨s.keypad, Option.some.inj h, rfl, rfl⟩
  | commitText t => exact ⟨s.keypad.withText (Text.trim t), Option.some.inj h, rfl, rfl⟩
  | input | backspace | clear | percent | recallEntry | history | clearHistory => cases h

theorem act_of_committed?_eq_none (now : Int64) (h : s.committed? action = none) :
    (∃ k, s.act now action = (.ok none, s.withKeypad k)) ∨
      action = .clearHistory ∧ s.act now action = (.ok none, s.clearHistory) := by
  cases action with
  | press key =>
    cases key with
    | equals => cases h
    | char | backspace | clear | percent => exact .inl ⟨_, rfl⟩
  | commit | commitText => cases h
  | input | backspace | clear | percent | recallEntry => exact .inl ⟨_, rfl⟩
  | history => exact .inl ⟨s.keypad, rfl⟩
  | clearHistory => exact .inr ⟨rfl, rfl⟩

/-- What an action does to a session: nothing beyond its keypad, unless it clears the history or
finds a value for the text that it commits. -/
theorem act_cases (s : Session) (now : Int64) (action : Action) :
    (∃ k, s.act now action = (.ok none, s.withKeypad k)) ∨
      (∃ text error, s.committed? action = some text ∧
        s.act now action = (.error error, s.withKeypad ⟨text, s.keypad.lastResult, true⟩)) ∨
      (∃ text v, s.committed? action = some text ∧ Evaluation.evaluate text = .ok v ∧
        s.act now action = (.ok (some v),
          (s.withKeypad ⟨NumberText.plain v, some v, false⟩).record now text v)) ∨
      action = .clearHistory ∧ s.act now action = (.ok none, s.clearHistory) := by
  cases hcommitted : s.committed? action with
  | none =>
    rcases act_of_committed?_eq_none now hcommitted with h | h
    · exact .inl h
    · exact .inr (.inr (.inr h))
  | some text =>
    obtain ⟨k, rfl, hlast, hact⟩ := act_of_committed? now hcommitted
    rw [hact, ← hlast]
    rcases commit_cases s k now with ⟨-, h⟩ | ⟨error, -, h⟩ | ⟨v, hvalue, h⟩
    · exact .inl ⟨k, h⟩
    · exact .inr (.inl ⟨_, error, rfl, h⟩)
    · exact .inr (.inr (.inl ⟨_, v, rfl, hvalue, h⟩))

theorem keypad_record (s : Session) (now : Int64) (text : Text) (v : Float) :
    (s.record now text v).keypad = s.keypad := by
  unfold record
  split <;> rfl

theorem keypad_press (s : Session) (now : Int64) (key : Key) :
    (s.press now key).2.keypad = (s.keypad.press key).2 := by
  unfold press
  split
  · rename_i hpress
    rw [hpress, keypad_record]
    rfl
  · rename_i hpress
    rw [hpress]
    rfl

theorem keypad_foldl_input (s : Session) (cs : Text) :
    (cs.foldl input s).keypad = cs.foldl Keypad.input s.keypad := by
  induction cs generalizing s with
  | nil => rfl
  | cons c cs ih => exact ih (s.input c)

/-! ### What is recorded -/

@[simp] theorem records_record (s : Session) (now : Int64) (text : Text) (v : Float) :
    (s.record now text v).records = s.records := by
  unfold record
  split <;> rfl

theorem history_record (hrecords : s.records = true) (k : Keypad) (now : Int64) (text : Text)
    (v : Float) :
    ((s.withKeypad k).record now text v).history = (s.history.append ⟨text, v, now⟩).2 := by
  rw [record, if_pos (by exact hrecords)]
  rfl

theorem history_record_of_not_records (hrecords : s.records = false) (k : Keypad) (now : Int64)
    (text : Text) (v : Float) : ((s.withKeypad k).record now text v).history = s.history := by
  have hnot : (s.withKeypad k).records ≠ true := by
    rw [show (s.withKeypad k).records = false from hrecords]
    decide
  rw [record, if_neg hnot]
  rfl

theorem records_act (s : Session) (now : Int64) (action : Action) :
    (s.act now action).2.records = s.records := by
  rcases act_cases s now action with ⟨k, h⟩ | ⟨_, _, -, h⟩ | ⟨_, _, -, -, h⟩ | ⟨-, h⟩ <;> rw [h]
  · rfl
  · rfl
  · exact records_record ..
  · rfl

/-- An action that fails leaves the text that it commits, and the last result. -/
theorem act_eq_error {error : CalcError} (h : (s.act now action).1 = .error error) :
    s.committed? action = some (s.act now action).2.keypad.expression ∧
      (s.act now action).2.keypad.lastResult = s.keypad.lastResult := by
  rcases act_cases s now action with
    ⟨k, hact⟩ | ⟨text, _, hcommitted, hact⟩ | ⟨_, _, -, -, hact⟩ | ⟨-, hact⟩ <;> rw [hact] at h ⊢
  · cases h
  · exact ⟨hcommitted, rfl⟩
  · cases h
  · cases h

/-- An action that finds a value does so for the text that it commits, and records both. -/
theorem act_eq_ok_some (h : (s.act now action).1 = .ok (some v)) :
    ∃ text, s.committed? action = some text ∧ Evaluation.evaluate text = .ok v ∧
      (s.records = true →
        (s.act now action).2.history = (s.history.append ⟨text, v, now⟩).2) := by
  rcases act_cases s now action with
    ⟨k, hact⟩ | ⟨_, _, -, hact⟩ | ⟨text, w, hcommitted, hvalue, hact⟩ | ⟨-, hact⟩ <;>
      rw [hact] at h ⊢
  · cases h
  · cases h
  · cases h
    exact ⟨text, hcommitted, hvalue, fun hrecords => history_record hrecords ..⟩
  · cases h

theorem history_act_eq_self (hne : action ≠ .clearHistory)
    (h : s.records = false ∨ ∀ v, (s.act now action).1 ≠ .ok (some v)) :
    (s.act now action).2.history = s.history := by
  rcases act_cases s now action with
    ⟨k, hact⟩ | ⟨_, _, -, hact⟩ | ⟨text, w, -, -, hact⟩ | ⟨heq, -⟩
  · rw [hact]
    rfl
  · rw [hact]
    rfl
  · rw [hact] at h ⊢
    rcases h with hrecords | h
    · exact history_record_of_not_records hrecords ..
    · exact absurd rfl (h w)
  · exact absurd heq hne

/-- An action leaves a history that works as it is, but for its storage, and readable if it was. -/
theorem history_act (hw : s.history.Works) (now : Int64) (action : Action) :
    ∃ st, st.Works s.history.key ∧ (s.act now action).2.history = s.history.inStorage st ∧
      (s.history.IsReadable → (s.act now action).2.history.IsReadable) := by
  by_cases hclear : action = .clearHistory
  · subst hclear
    obtain ⟨st, hst, hclear, -⟩ := History.clear_found hw
    exact ⟨st, hst.works, congrArg Prod.snd hclear, fun _ => History.isReadable_clear hw⟩
  by_cases hfound : s.records = true ∧ ∃ v, (s.act now action).1 = .ok (some v)
  · obtain ⟨hrecords, v, hv⟩ := hfound
    obtain ⟨text, -, hvalue, hhistory⟩ := act_eq_ok_some hv
    obtain ⟨st, hst, happend, -⟩ := History.append_found hw ⟨text, v, now⟩
    rw [hhistory hrecords]
    exact ⟨st, hst.works, congrArg Prod.snd happend, fun _ =>
      History.isReadable_append hw (Evaluation.isFinite_of_evaluate hvalue)⟩
  · have hsame : s.records = false ∨ ∀ v, (s.act now action).1 ≠ .ok (some v) := by
      rw [not_and_or, Bool.not_eq_true, not_exists] at hfound
      exact hfound
    rw [history_act_eq_self hclear hsame]
    exact ⟨s.history.storage, hw.2, rfl, id⟩

/-! ### Runs -/

/-- Each of some actions meets a condition in the session in which it is taken. -/
def Along (Condition : Session → Int64 → Action → Prop) (s : Session) :
    List (Int64 × Action) → Prop
  | [] => True
  | (now, action) :: steps => Condition s now action ∧ Along Condition (s.act now action).2 steps

instance decidableAlong (Condition : Session → Int64 → Action → Prop)
    [∀ s now action, Decidable (Condition s now action)] (s : Session) :
    (steps : List (Int64 × Action)) → Decidable (s.Along Condition steps)
  | [] => inferInstanceAs (Decidable True)
  | (now, action) :: steps =>
    have := decidableAlong Condition (s.act now action).2 steps
    inferInstanceAs (Decidable (Condition s now action ∧ Along Condition _ steps))

section Along

variable {Condition Condition' : Session → Int64 → Action → Prop} {steps : List (Int64 × Action)}

theorem along_of_forall {Kind : Action → Prop} (h : ∀ step ∈ steps, Kind step.2) :
    s.Along (fun _ _ action => Kind action) steps := by
  induction steps generalizing s with
  | nil => exact trivial
  | cons step steps ih =>
    obtain ⟨hfirst, hrest⟩ := List.forall_mem_cons.1 h
    exact ⟨hfirst, ih hrest⟩

theorem Along.and (h : s.Along Condition steps) (h' : s.Along Condition' steps) :
    s.Along (fun s now action => Condition s now action ∧ Condition' s now action) steps := by
  induction steps generalizing s with
  | nil => exact trivial
  | cons step steps ih => exact ⟨⟨h.1, h'.1⟩, ih h.2 h'.2⟩

/-- What each action that meets the condition keeps is kept by the run. -/
theorem Along.run (Kept : Session → Prop)
    (hact : ∀ {s now action}, Condition s now action → Kept s → Kept (s.act now action).2)
    (h : s.Along Condition steps) (hs : Kept s) : Kept (s.run steps) := by
  induction steps generalizing s with
  | nil => exact hs
  | cons step steps ih => exact ih h.2 (hact h.1 hs)

/-- What each action of a kind keeps is kept by a run of actions of the kind. -/
theorem run_invariant (Kept : Session → Prop) {Kind : Action → Prop}
    (hact : ∀ {s action}, Kind action → Kept s → ∀ now, Kept (s.act now action).2)
    (h : ∀ step ∈ steps, Kind step.2) (hs : Kept s) : Kept (s.run steps) :=
  (along_of_forall h).run Kept (fun hkind hkept => hact hkind hkept _) hs

end Along

theorem records_run (s : Session) (steps : List (Int64 × Action)) :
    (s.run steps).records = s.records := by
  induction steps generalizing s with
  | nil => rfl
  | cons step steps ih => exact (ih _).trans (records_act ..)

theorem history_run (hw : s.history.Works) (steps : List (Int64 × Action)) :
    ∃ st, st.Works s.history.key ∧ (s.run steps).history = s.history.inStorage st ∧
      (s.history.IsReadable → (s.run steps).history.IsReadable) := by
  induction steps generalizing s with
  | nil => exact ⟨s.history.storage, hw.2, rfl, id⟩
  | cons step steps ih =>
    obtain ⟨now, action⟩ := step
    obtain ⟨st, hst, hact, hreadable⟩ := history_act hw now action
    have hnext : (s.act now action).2.history.Works := by
      rw [hact]
      exact ⟨hw.1, hst⟩
    obtain ⟨st', hst', hrun, hreadable'⟩ := ih hnext
    rw [hact] at hst' hrun
    exact ⟨st', hst', hrun, hreadable' ∘ hreadable⟩

/-- However a session was operated, its next action fails only in committing a text, which it leaves
in place together with the last result. It changes what is stored only by finding a value while
results are recorded, or by clearing the history. A value that is found is finite and belongs to the
text that was committed; where the history works, both are put at the end of what is listed, as one
entry, and as many are stored as the history may hold. What is stored stays readable. -/
theorem history_act_run (s : Session) (steps : List (Int64 × Action)) (now : Int64)
    (action : Action) :
    let before := s.run steps
    let outcome := (before.act now action).1
    let after := (before.act now action).2
    (∀ error, outcome = .error error → before.committed? action = some after.keypad.expression ∧
      after.keypad.lastResult = before.keypad.lastResult) ∧
    (action ≠ .clearHistory → s.records = false ∨ (∀ v, outcome ≠ .ok (some v)) →
      after.history = before.history) ∧
    (∀ v, outcome = .ok (some v) → v.isFinite = true ∧ ∃ text,
      before.committed? action = some text ∧ Evaluation.evaluate text = .ok v ∧
      (s.records = true → s.history.Works →
        let kept := (before.entries ++ [Entry.mk text v now]).rtake s.history.capacity
        after.history.stored = .ok (some (Entry.encodeAll kept)) ∧
          after.entries = kept.map Entry.reloaded)) ∧
    (s.history.Works → s.history.IsReadable → after.history.IsReadable) := by
  intro before outcome after
  have hrecords : before.records = s.records := records_run s steps
  have hworks : s.history.Works → before.history.Works ∧
      before.history.capacity = s.history.capacity ∧
      (s.history.IsReadable → before.history.IsReadable) := by
    intro hw
    obtain ⟨st, hst, hrun, hreadable⟩ := history_run hw steps
    refine ⟨?_, ?_, hreadable⟩ <;> rw [hrun]
    · exact ⟨hw.1, hst⟩
    · rfl
  refine ⟨fun error => act_eq_error, fun hne hsame => ?_, fun v hv => ?_, fun hw hr => ?_⟩
  · rw [← hrecords] at hsame
    exact history_act_eq_self hne hsame
  · obtain ⟨text, hcommitted, hvalue, hhistory⟩ := act_eq_ok_some hv
    have hfinite := Evaluation.isFinite_of_evaluate hvalue
    refine ⟨hfinite, text, hcommitted, hvalue, fun hon hw => ?_⟩
    obtain ⟨hbefore, hcapacity, -⟩ := hworks hw
    have happend : after.history = (before.history.append ⟨text, v, now⟩).2 :=
      hhistory (hrecords.trans hon)
    obtain ⟨st, -, hspec, hentries⟩ := History.append_spec (e := ⟨text, v, now⟩) hbefore hfinite
    refine ⟨?_, ?_⟩
    · rw [happend, ← hcapacity]
      exact History.stored_append hbefore _
    · rw [entries, happend, hspec, ← hcapacity]
      exact hentries
  · obtain ⟨hbefore, -, hkept⟩ := hworks hw
    obtain ⟨-, -, -, hact⟩ := history_act hbefore now action
    exact hact (hkept hr)

/-- The first of two results gives way to the second one in a history of one entry. -/
theorem history_act_run_of_two_results :
    let s := Session.new (.new (.memory []) History.defaultKey 1) true
    let steps := [(5, Action.commitText [' ', '2']), (6, .press (.char '÷')), (7, .input '4')]
    s.history.Works ∧ s.history.IsReadable ∧
      (((s.run steps).act 8 (.press .equals)).1 = .ok (some 0.5)) ∧
      let after := ((s.run steps).act 8 (.press .equals)).2
      after.history.IsReadable ∧
        after.history.stored = .ok (some (Entry.encodeAll [Entry.mk ['2', '/', '4'] 0.5 8])) := by
  intro s steps
  have hw : s.history.Works := ⟨by decide, .memory []⟩
  have hr : s.history.IsReadable := .inl rfl
  have hfound : ((s.run steps).act 8 (.press .equals)).1 = .ok (some 0.5) := by decide +kernel
  obtain ⟨-, -, hvalue, hreadable⟩ := history_act_run s steps 8 (.press .equals)
  obtain ⟨-, text, hcommitted, -, hstored⟩ := hvalue _ hfound
  have htext : ['2', '/', '4'] = text := Option.some.inj (Eq.trans (by decide +kernel) hcommitted)
  subst htext
  obtain ⟨hstored, -⟩ := hstored rfl hw
  have hcapacity : s.history.capacity = 1 := rfl
  rw [hcapacity, List.rtake, List.length_append, List.length_singleton, Nat.add_sub_cancel,
    List.drop_left] at hstored
  exact ⟨hw, hr, hfound, hreadable hw hr, hstored⟩

end Session

end KeypadCalc
