import KeypadCalc.Proofs.Sanitizing.Results
import KeypadCalc.Proofs.Session.Editing

/-! Committing a text without content. A text of blanks is left alone, but one that has group
separators as well is worth zero and is recorded, although nothing is left of either when it is
sanitized. Nothing else without content is recorded: on the keypad no expression comes to begin
with a separator, unless a text that begins with one was committed. -/

namespace KeypadCalc

open NumberText
open Sanitizer (Contentless contentless_iff)

variable {a b t t' : Text} {c : Char} {k : Keypad}

/-- A text does not begin with a group separator or a blank. -/
def BeginsWithContent (t : Text) : Prop := ∀ c ∈ t.head?, c ≠ ',' ∧ Text.isBlank c = false

theorem BeginsWithContent.not_contentless (h : BeginsWithContent t) (hne : t ≠ []) :
    ¬Contentless t := by
  rw [contentless_iff]
  intro hall
  obtain ⟨c, t, rfl⟩ := List.exists_cons_of_ne_nil hne
  obtain ⟨hcomma, hblank⟩ := h c rfl
  rcases hall c List.mem_cons_self with hc | hc
  · exact hcomma hc
  · rw [hblank] at hc
    cases hc

theorem BeginsWithContent.of_append (h : BeginsWithContent (a ++ b)) : BeginsWithContent a := by
  cases a with
  | nil => exact nofun
  | cons c a => exact h

theorem BeginsWithContent.append (ha : BeginsWithContent a) (hb : a = [] → BeginsWithContent b) :
    BeginsWithContent (a ++ b) := by
  cases a with
  | nil => exact hb rfl
  | cons c a => exact ha

theorem BeginsWithContent.dropLast (h : BeginsWithContent t) : BeginsWithContent t.dropLast := by
  obtain ⟨last, hlast⟩ := List.dropLast_prefix t
  rw [← hlast] at h
  exact h.of_append

theorem beginsWithContent_cons (hc : Keypad.isTypable c = true) (t : Text) :
    BeginsWithContent (c :: t) := by
  rintro d ⟨⟩
  refine ⟨?_, Keypad.isBlank_of_isTypable hc⟩
  rintro rfl
  exact absurd hc (by decide)

theorem BeginsWithContent.concat (h : BeginsWithContent t) (hc : Keypad.isTypable c = true) :
    BeginsWithContent (t ++ [c]) :=
  h.append fun _ => beginsWithContent_cons hc []

theorem beginsWithContent_of_isLiteral (h : Sanitizer.IsLiteral t) : BeginsWithContent t := by
  obtain ⟨c, t, rfl, hc⟩ := h.exists_cons
  exact beginsWithContent_cons (Keypad.isTypable_of_isDigit hc) t

theorem beginsWithContent_plain (v : Float) : BeginsWithContent (plain v) := by
  have hmagnitude : ∀ m, IsMagnitude m → BeginsWithContent m := by
    intro m hm
    cases hm with
    | literal hu => exact beginsWithContent_of_isLiteral hu
    | power hu => exact (beginsWithContent_of_isLiteral hu).append fun hnil => absurd hnil hu.ne_nil
    | infinity | nan =>
      rintro d ⟨⟩
      decide
  rcases plain_cases v with ⟨-, hm⟩ | ⟨-, hzero | ⟨m, heq, -⟩⟩
  · exact hmagnitude _ hm
  · rw [hzero]
    exact beginsWithContent_cons rfl []
  · rw [heq]
    exact beginsWithContent_cons rfl m

/-! ### The expression of a keypad -/

theorem BeginsWithContent.typedText? (h : BeginsWithContent t)
    (ht : Keypad.typedText? t c = some t') : BeginsWithContent t' := by
  rcases Keypad.typedText?_eq ht with rfl | ⟨front, d, ⟨rest, hfront⟩, hd, rfl⟩
  · exact h
  · rw [← hfront] at h
    exact h.of_append.concat hd

theorem beginsWithContent_of_edits (h : Edits t t') (ht : BeginsWithContent t) :
    BeginsWithContent t' := by
  cases h with
  | same => exact ht
  | typed htyped => exact ht.typedText? htyped
  | dropLast => exact ht.dropLast
  | cleared => exact nofun
  | number v => exact beginsWithContent_plain v

theorem BeginsWithContent.percent (h : BeginsWithContent k.expression) :
    BeginsWithContent k.percent.expression := by
  rcases Keypad.percent_cases k with ⟨-, hpercent⟩ | ⟨-, hpercent⟩ | ⟨front, v, hsome, hpercent⟩ <;>
    rw [hpercent]
  · exact beginsWithContent_cons rfl []
  · exact h
  · obtain ⟨numeral, hsplit, -⟩ := Keypad.exists_of_dividend? hsome
    rw [← Keypad.splitNumeral?_append hsplit] at h
    exact h.of_append.append fun _ => beginsWithContent_plain _

/-- What is left of a text without the blanks around it begins with no blank. -/
theorem beginsWithContent_trim (h : (Text.trim t).head? ≠ some ',') :
    BeginsWithContent (Text.trim t) := by
  intro c hc
  refine ⟨?_, ?_⟩
  · rintro rfl
    exact h hc
  · rw [Text.head?_trim] at hc
    simpa using List.find?_some hc

namespace Session

variable {s : Session} {now : Int64} {action : Action} {text : Text} {v : Float}
  {steps : List (Int64 × Action)}

/-- An action that commits no text from elsewhere that begins with a separator, blanks apart. -/
def Action.CommitsContent : Action → Prop
  | .commitText t => (Text.trim t).head? ≠ some ','
  | _ => True

theorem Action.CommitsContent.commitsWith (h : action.CommitsContent) :
    action.CommitsWith BeginsWithContent := by
  cases action with
  | commitText t => exact beginsWithContent_trim h
  | press | input | backspace | clear | percent | commit | recallEntry | history | clearHistory =>
    exact trivial

theorem keptOnKeypad_beginsWithContent : KeptOnKeypad BeginsWithContent :=
  ⟨beginsWithContent_of_edits, BeginsWithContent.percent⟩

theorem beginsWithContent_run (h : ∀ step ∈ steps, step.2.CommitsContent)
    (hs : BeginsWithContent s.keypad.expression) :
    BeginsWithContent (s.run steps).keypad.expression :=
  keptOnKeypad_beginsWithContent.run (fun step hstep => (h step hstep).commitsWith) hs

/-! ### What is committed -/

theorem commit_of_nil (h : k.expression = []) (s : Session) (now : Int64) :
    (s.withKeypad k).commit now = (.ok none, s.withKeypad k) := by
  have hcommit : k.commit = (.ok none, k) := if_pos h
  simp only [commit, press, Keypad.press, show (s.withKeypad k).keypad = k from rfl, hcommit]
  rfl

/-- A text for which a value is found is not empty. -/
theorem committed_ne_nil (h : s.committed? action = some text)
    (hv : (s.act now action).1 = .ok (some v)) : text ≠ [] := by
  obtain ⟨k, rfl, -, hact⟩ := act_of_committed? now h
  intro hnil
  rw [hact, commit_of_nil hnil] at hv
  cases hv

/-- A history changes, unless it is cleared, by recording a text with content. -/
theorem exists_recorded (hs : BeginsWithContent s.keypad.expression)
    (hcontent : action.CommitsContent) (hclear : action ≠ .clearHistory)
    (h : (s.act now action).2.history ≠ s.history) :
    ∃ text v, s.committed? action = some text ∧ ¬Contentless text ∧
      (s.act now action).2.history = (s.history.append ⟨text, v, now⟩).2 := by
  have hfound : s.records = true ∧ ∃ v, (s.act now action).1 = .ok (some v) := by
    by_contra hnot
    rw [not_and_or, Bool.not_eq_true, not_exists] at hnot
    exact h (history_act_eq_self hclear hnot)
  obtain ⟨hrecords, v, hv⟩ := hfound
  obtain ⟨text, hcommitted, -, hhistory⟩ := act_eq_ok_some hv
  have hbegins := holds_of_committed? hcommitted hcontent.commitsWith hs
  exact ⟨text, v, hcommitted, hbegins.not_contentless (committed_ne_nil hcommitted hv),
    hhistory hrecords⟩

theorem commitText_of_isBlank (h : ∀ c ∈ t, Text.isBlank c = true) (s : Session) (now : Int64) :
    s.commitText now t = (.ok none, s.withKeypad ⟨[], s.keypad.lastResult, false⟩) := by
  have htrim := Text.trim_eq_nil_iff.2 h
  rw [commitText, commit_of_nil (k := s.keypad.withText (Text.trim t)) htrim, htrim]
  rfl

theorem commitText_eq_ok_none_iff :
    (s.commitText now t).1 = .ok none ↔ ∀ c ∈ t, Text.isBlank c = true := by
  refine ⟨fun h => ?_, fun h => by rw [commitText_of_isBlank h]⟩
  rcases commit_cases s (s.keypad.withText (Text.trim t)) now with
    ⟨hnil, -⟩ | ⟨_, -, hcommit⟩ | ⟨_, -, hcommit⟩
  · exact Text.trim_eq_nil_iff.1 hnil
  · rw [commitText, hcommit] at h
    cases h
  · rw [commitText, hcommit] at h
    cases h

/-- Separators among blanks are worth zero. -/
theorem commitText_of_separators (h : Contentless t) (hcomma : ',' ∈ t) (s : Session)
    (now : Int64) : s.commitText now t = (.ok (some 0.0),
      (s.withKeypad ⟨['0'], some 0.0, false⟩).record now (Text.trim t) 0.0) := by
  have hne : Text.trim t ≠ [] := fun hnil =>
    absurd (Text.trim_eq_nil_iff.1 hnil ',' hcomma) (by decide)
  have hvalue : Evaluation.evaluate (Text.trim t) = .ok 0.0 := by
    have htrim : Contentless (Text.trim t) :=
      contentless_iff.2 fun c hc => contentless_iff.1 h c (Text.mem_of_mem_trim hc)
    obtain ⟨u, hu, hblank⟩ := htrim
    exact Evaluation.evaluate_of_blank hu (Text.isBlankText_iff.2 (Text.trim_eq_nil_iff.1 hblank))
  have hzero : plain 0.0 = ['0'] := by decide +kernel
  rcases commit_cases s (s.keypad.withText (Text.trim t)) now with
    ⟨hnil, -⟩ | ⟨_, herror, -⟩ | ⟨v, hv, hcommit⟩
  · exact absurd hnil hne
  · cases hvalue.symm.trans herror
  · cases hvalue.symm.trans hv
    rw [commitText, hcommit, hzero]
    rfl

/-- Committing a text gives no value, and leaves the history, exactly if it holds nothing but
blanks. So the texts of which nothing is left are treated alike, but for those with separators,
which are worth zero and are recorded. Besides these, only texts with content are ever recorded,
whatever is done to a session, as long as no text that begins with a separator is committed. -/
theorem commitText_noop_iff (s : Session) (now : Int64) (t : Text) :
    let found := s.commitText now t
    ((found.1 = .ok none ∧ found.2.history = s.history ↔ Contentless t) ↔
        ¬(Contentless t ∧ ',' ∈ t)) ∧
      ((∀ c ∈ t, Text.isBlank c = true) →
        found = (.ok none, s.withKeypad ⟨[], s.keypad.lastResult, false⟩)) ∧
      (Contentless t → ',' ∈ t → found = (.ok (some 0.0),
        (s.withKeypad ⟨['0'], some 0.0, false⟩).record now (Text.trim t) 0.0)) ∧
      (BeginsWithContent s.keypad.expression → ∀ (steps : List (Int64 × Action)) (later : Int64)
        (action : Action), (∀ step ∈ steps, step.2.CommitsContent) → action.CommitsContent →
        let before := s.run steps
        let after := (before.act later action).2
        action ≠ .clearHistory → after.history ≠ before.history →
          ∃ text v, before.committed? action = some text ∧ ¬Contentless text ∧
            after.history = (before.history.append ⟨text, v, later⟩).2) := by
  intro found
  have hnoop : found.1 = .ok none ∧ found.2.history = s.history ↔
      ∀ c ∈ t, Text.isBlank c = true := by
    refine ⟨fun h => commitText_eq_ok_none_iff.1 h.1, fun h => ?_⟩
    rw [show found = _ from commitText_of_isBlank h s now]
    exact ⟨rfl, rfl⟩
  have hblank : (∀ c ∈ t, Text.isBlank c = true) ↔ Contentless t ∧ ',' ∉ t := by
    rw [contentless_iff]
    refine ⟨fun h => ⟨fun c hc => .inr (h c hc), fun hcomma => absurd (h _ hcomma) (by decide)⟩,
      fun ⟨h, hcomma⟩ c hc => (h c hc).resolve_left ?_⟩
    rintro rfl
    exact hcomma hc
  refine ⟨?_, fun h => commitText_of_isBlank h s now, fun h hcomma =>
    commitText_of_separators h hcomma s now, fun hs steps later action hsteps haction => ?_⟩
  · rw [hnoop, hblank]
    tauto
  · exact exists_recorded (beginsWithContent_run hsteps hs) haction

/-- A separator that stands alone is committed with the value zero. -/
theorem not_forall_commitText_noop :
    ¬∀ (s : Session) (now : Int64) (t : Text),
      (s.commitText now t).1 = .ok none ∧ (s.commitText now t).2.history = s.history ↔
        ∃ u, Sanitizer.sanitize t = .ok u ∧ Text.trim u = [] := by
  intro h
  let s := new (.new (.memory []) History.defaultKey 20) true
  obtain ⟨hnone, -⟩ := (h s 1 [',']).2 ⟨[], by decide +kernel, rfl⟩
  exact absurd hnone (by decide +kernel)

end Session

end KeypadCalc
