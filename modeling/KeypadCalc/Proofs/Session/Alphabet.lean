import KeypadCalc.Proofs.Evaluation
import KeypadCalc.Proofs.Keypad.Dividing
import KeypadCalc.Proofs.NumberText
import KeypadCalc.Proofs.Session

/-! The characters of the expression in a session that is operated by its keys. Each action keeps a
front of the expression and puts after it admitted characters, or a number as it is written. So the
expression is admitted as long as the numbers are written as literals, and the only characters that
others bring in are those of a power of ten and of an infinity. -/

namespace KeypadCalc

open NumberText
open Decimal.Numeral (value? isNaN_of_value?)
open Sanitizer

variable {t t' b front : Text} {c : Char} {v : Float}

/-! ### What an action writes -/

/-- A text with `b` in place of its end. -/
def Rewrites (t t' b : Text) : Prop := ∃ front rest, t = front ++ rest ∧ t' = front ++ b

theorem rewrites_self (t : Text) : Rewrites t t [] := ⟨t, [], by simp, by simp⟩

theorem rewrites_all (t b : Text) : Rewrites t b b := ⟨[], t, rfl, rfl⟩

theorem rewrites_dropLast (t : Text) : Rewrites t t.dropLast [] := by
  obtain ⟨last, hlast⟩ := t.dropLast_prefix
  exact ⟨t.dropLast, last, hlast.symm, by simp⟩

/-- A text with a number in place of its end, as the number is written, or with admitted characters
if there is no number. -/
inductive Writes (t t' : Text) : Option Float → Prop
  | number {v : Float} : v.isNaN = false → Rewrites t t' (plain v) → Writes t t' (some v)
  | characters {b : Text} : (∀ x ∈ b, isAllowed x = true) → Rewrites t t' b → Writes t t' none

theorem writes_self (t : Text) : Writes t t none := .characters (by simp) (rewrites_self t)

theorem writes_character (hc : isAllowed c = true) (h : Rewrites t t' [c]) : Writes t t' none :=
  .characters (List.forall_mem_singleton.2 hc) h

namespace Keypad

theorem writes_typedText? (h : typedText? t c = some t') : Writes t t' none := by
  rcases typedText?_eq h with rfl | ⟨front, d, ⟨rest, rfl⟩, hd, rfl⟩
  · exact writes_self _
  · exact writes_character (isAllowed_of_isTypable hd) ⟨front, rest, rfl, rfl⟩

theorem writes_input (k : Keypad) (c : Char) : Writes k.expression (k.input c).expression none := by
  unfold input
  split
  · rename_i t htyped
    exact writes_typedText? htyped
  · exact writes_self _

/-- The number that the percent key writes, if it finds one to divide. -/
def quotient? (k : Keypad) : Option Float :=
  (splitNumeral? k.expression).bind fun s => (value? s.2).map (· / 100.0)

theorem quotient?_eq (k : Keypad) :
    k.quotient? = (dividend? k.expression).map fun d => d.2 / 100.0 := by
  rw [quotient?, dividend?]
  cases splitNumeral? k.expression with
  | none => rfl
  | some s => exact (Option.map_map (fun d : Text × Float => d.2 / 100.0) (Prod.mk s.1) _).symm

theorem writes_percent (k : Keypad) : Writes k.expression k.percent.expression k.quotient? := by
  rw [quotient?_eq]
  rcases percent_cases k with ⟨hnil, hpercent⟩ | ⟨hnone, hpercent⟩ | ⟨front, v, hsome, hpercent⟩
  · rw [hpercent, hnil]
    exact writes_character rfl (rewrites_all _ _)
  · rw [hpercent, hnone]
    exact writes_self _
  · obtain ⟨numeral, hsplit, hvalue⟩ := exists_of_dividend? hsome
    rw [hpercent, hsome]
    exact .number (div_hundred_spec (isNaN_of_value? hvalue)).1
      ⟨front, numeral, (splitNumeral?_append hsplit).symm, rfl⟩

/-- The number that a key writes into the expression, if it writes one. -/
def written? (k : Keypad) : Key → Option Float
  | .percent => k.quotient?
  | .equals => k.commit.1.toOption.join
  | _ => none

theorem writes_commit (k : Keypad) :
    Writes k.expression k.commit.2.expression (k.written? .equals) := by
  unfold written? commit
  split
  · exact writes_self _
  · split
    · exact writes_self _
    · rename_i v hvalue
      exact .number (isNaN_of_isFinite (Evaluation.isFinite_of_evaluate hvalue)) (rewrites_all _ _)

/-- What each key puts at the end of a front of the expression. -/
theorem writes_press (k : Keypad) (key : Key) :
    Writes k.expression (k.press key).2.expression (k.written? key) := by
  cases key with
  | char c => exact writes_input k c
  | backspace => exact .characters (by simp) (rewrites_dropLast _)
  | clear => exact .characters (by simp) (rewrites_all _ [])
  | percent => exact writes_percent k
  | equals => exact writes_commit k

end Keypad

namespace Session

/-- The number that an action writes into the expression, if it writes one. -/
def written? (s : Session) : Action → Option Float
  | .press key => s.keypad.written? key
  | .percent => s.keypad.written? .percent
  | .commit => s.keypad.written? .equals
  | .recallEntry e => some e.result
  | _ => none

/-- An action of the keys, or the recall of a finite result: anything but committing a text that
comes from elsewhere. -/
def Action.ByKeys : Action → Prop
  | .commitText _ => False
  | .recallEntry e => e.result.isFinite = true
  | _ => True

instance : DecidablePred Action.ByKeys
  | .commitText _ => inferInstanceAs (Decidable False)
  | .recallEntry e => inferInstanceAs (Decidable (e.result.isFinite = true))
  | .press _ | .input _ | .backspace | .clear | .percent | .commit | .history | .clearHistory =>
    inferInstanceAs (Decidable True)

variable {s : Session} {now : Int64} {action : Action} {steps : List (Int64 × Action)}

/-- What an action that is taken by keys puts at the end of a front of the expression. -/
theorem writes_act (now : Int64) (h : action.ByKeys) :
    Writes s.keypad.expression (s.act now action).2.keypad.expression (s.written? action) := by
  have hpress : ∀ key, Writes s.keypad.expression (s.press now key).2.keypad.expression
      (s.keypad.written? key) := by
    intro key
    rw [keypad_press]
    exact Keypad.writes_press s.keypad key
  cases action with
  | press key => exact hpress key
  | input c => exact Keypad.writes_input s.keypad c
  | backspace => exact hpress .backspace
  | clear => exact hpress .clear
  | percent => exact hpress .percent
  | commit => exact hpress .equals
  | commitText t => exact absurd h id
  | recallEntry e => exact .number (isNaN_of_isFinite h) (rewrites_all _ _)
  | history => exact writes_self _
  | clearHistory => exact writes_self _

/-! ### Characters that are not admitted -/

/-- The only characters of a text that are not admitted come from a power of ten or an infinity. -/
def LettersOnly (t : Text) : Prop := ∀ c ∈ foreign? t, c = 'e' ∨ c = 'I'

theorem foreign?_of_rewrites (h : Rewrites t t' b) :
    ∃ front, (∀ c ∈ foreign? front, foreign? t = some c) ∧
      foreign? t' = (foreign? front).or (foreign? b) := by
  obtain ⟨front, rest, rfl, rfl⟩ := h
  refine ⟨front, fun c hc => ?_, foreign?_append ..⟩
  rw [foreign?_append, Option.mem_def.1 hc]
  rfl

theorem LettersOnly.rewrites (ht : LettersOnly t) (hb : LettersOnly b) (h : Rewrites t t' b) :
    LettersOnly t' := by
  obtain ⟨front, hfront, heq⟩ := foreign?_of_rewrites h
  intro c hc
  rw [heq] at hc
  cases hforeign : foreign? front with
  | none =>
    rw [hforeign] at hc
    exact hb c hc
  | some d =>
    rw [hforeign] at hc
    cases hc
    exact ht c (hfront c hforeign)

theorem foreign?_rewrites (ht : foreign? t = none) (h : Rewrites t t' b) :
    foreign? t' = foreign? b := by
  obtain ⟨front, hfront, heq⟩ := foreign?_of_rewrites h
  cases hforeign : foreign? front with
  | none => rw [heq, hforeign, Option.none_or]
  | some d =>
    rw [hfront d hforeign] at ht
    cases ht

theorem lettersOnly_plain (h : v.isNaN = false) : LettersOnly (plain v) := by
  intro c hc
  by_cases hpositional : Positional v
  · rw [foreign?_plain_of_positional hpositional] at hc
    cases hc
  · rcases foreign?_plain_of_not_positional hpositional h with hletter | hletter <;>
      rw [hletter] at hc <;> cases hc
    · exact .inl rfl
    · exact .inr rfl

theorem lettersOnly_of_writes {v? : Option Float} (h : Writes t t' v?) (ht : LettersOnly t) :
    LettersOnly t' := by
  cases h with
  | number hnan hrewrites => exact ht.rewrites (lettersOnly_plain hnan) hrewrites
  | characters hb hrewrites =>
    refine ht.rewrites (fun c hc => ?_) hrewrites
    rw [foreign?_eq_none hb] at hc
    cases hc

/-- An admitted text stays so exactly if the number that is written is written as a literal. -/
theorem foreign?_eq_none_iff_of_writes {v? : Option Float} (h : Writes t t' v?)
    (ht : foreign? t = none) : foreign? t' = none ↔ ∀ v ∈ v?, Positional v := by
  cases h with
  | @number v hnan hrewrites =>
    rw [foreign?_rewrites ht hrewrites]
    by_cases hpositional : Positional v
    · simp [foreign?_plain_of_positional hpositional, hpositional]
    · rcases foreign?_plain_of_not_positional hpositional hnan with hletter | hletter <;>
        simp [hletter, hpositional]
  | characters hb hrewrites => simp [foreign?_rewrites ht hrewrites, foreign?_eq_none hb]

/-! ### Runs -/

/-- Each number that some actions write is written as a literal. -/
abbrev WritesPositional : Session → List (Int64 × Action) → Prop :=
  Along fun s _ action => ∀ v ∈ s.written? action, Positional v

theorem lettersOnly_run (h : ∀ step ∈ steps, step.2.ByKeys) (hs : LettersOnly s.keypad.expression) :
    LettersOnly (s.run steps).keypad.expression :=
  run_invariant (fun s => LettersOnly s.keypad.expression)
    (fun hkeys ht now => lettersOnly_of_writes (writes_act now hkeys) ht) h hs

theorem foreign?_run_eq_none (h : ∀ step ∈ steps, step.2.ByKeys) (hw : s.WritesPositional steps)
    (hs : foreign? s.keypad.expression = none) :
    foreign? (s.run steps).keypad.expression = none := by
  refine ((along_of_forall h).and hw).run (fun s => foreign? s.keypad.expression = none) ?_ hs
  rintro s now action ⟨hkeys, hwritten⟩ hadmitted
  exact (foreign?_eq_none_iff_of_writes (writes_act now hkeys) hadmitted).2 hwritten

theorem commit_ne_invalidCharacter (h : foreign? s.keypad.expression = none) (now : Int64)
    (c : Char) : (s.commit now).1 ≠ .error (.invalidCharacter c) := by
  intro hcommit
  rcases commit_cases s s.keypad now with ⟨-, heq⟩ | ⟨error, hvalue, heq⟩ | ⟨v, -, heq⟩ <;>
    rw [show s.withKeypad s.keypad = s from rfl] at heq <;> rw [heq] at hcommit
  · cases hcommit
  · cases hcommit
    obtain ⟨d, hd, -⟩ := sanitize_eq_error_iff.1 (Evaluation.sanitize_of_evaluate hvalue)
    rw [h] at hd
    cases hd
  · cases hcommit

/-- In a new session that is operated by keys and recalled results, the expression is admitted, and
committing it fails on no character, as long as every number that is written lies between 1e-6 and
1e21 or is zero. From an admitted expression, writing any other number leads to one that is not; the
character that is refused then, and ever, belongs to a power of ten or to an infinity. -/
theorem sanitize_run_of_keys (history : History) (records : Bool) (steps : List (Int64 × Action))
    (h : ∀ step ∈ steps, step.2.ByKeys) :
    let s := (new history records).run steps
    ((new history records).WritesPositional steps →
      (∃ t, sanitize s.keypad.expression = .ok t) ∧
        ∀ now c, (s.commit now).1 ≠ .error (.invalidCharacter c)) ∧
    ((∃ t, sanitize s.keypad.expression = .ok t) → ∀ now action, action.ByKeys →
      ((∃ t, sanitize (s.act now action).2.keypad.expression = .ok t) ↔
        ∀ v ∈ s.written? action, Positional v)) ∧
    ∀ error, sanitize s.keypad.expression = .error error →
      error = .invalidCharacter 'e' ∨ error = .invalidCharacter 'I' := by
  intro s
  simp only [exists_sanitize_eq_ok_iff]
  have hnew : foreign? (new history records).keypad.expression = none := rfl
  refine ⟨fun hw => ?_, fun hs now action ha => ?_, ?_⟩
  · have hs : foreign? s.keypad.expression = none := foreign?_run_eq_none h hw hnew
    exact ⟨hs, commit_ne_invalidCharacter hs⟩
  · exact foreign?_eq_none_iff_of_writes (writes_act now ha) hs
  · intro error herror
    obtain ⟨c, hc, rfl⟩ := sanitize_eq_error_iff.1 herror
    have hletters : LettersOnly (new history records).keypad.expression := by
      intro d hd
      rw [hnew] at hd
      cases hd
    rcases lettersOnly_run h hletters c hc with rfl | rfl
    · exact .inl rfl
    · exact .inr rfl

/-- Half a percent is committed, and an eighth recalled. -/
theorem sanitize_run_of_half_percent :
    let s := Session.new (.new (.memory []) History.defaultKey 1) true
    let steps := [(0, Action.press (.char '0')), (0, .press (.char '.')), (0, .press (.char '5')),
      (0, .press .percent), (0, .press .equals), (0, .recallEntry ⟨['1', '/', '8'], 0.125, 0⟩)]
    (∀ step ∈ steps, step.2.ByKeys) ∧ s.WritesPositional steps ∧
      ∃ t, sanitize (s.run steps).keypad.expression = .ok t := by
  intro s steps
  have hkeys : ∀ step ∈ steps, step.2.ByKeys := by decide +kernel
  have hwrites : s.WritesPositional steps := by decide +kernel
  exact ⟨hkeys, hwrites, ((sanitize_run_of_keys _ true steps hkeys).1 hwrites).1⟩

/-- A hundredth of a millionth is written with a power of ten, which is refused. -/
theorem not_forall_sanitize_run_of_keys :
    ¬∀ (history : History) (records : Bool) (steps : List (Int64 × Action)),
      (∀ step ∈ steps, step.2.ByKeys) →
        ∃ t, sanitize ((new history records).run steps).keypad.expression = .ok t := by
  intro h
  obtain ⟨t, ht⟩ := h (.new (.memory []) History.defaultKey 1) true
    [(0, .press (.char '1')), (0, .press .percent), (0, .press .percent), (0, .press .percent),
      (0, .press .percent)] (by decide)
  have hrefused : sanitize ((new (.new (.memory []) History.defaultKey 1) true).run
      [(0, .press (.char '1')), (0, .press .percent), (0, .press .percent), (0, .press .percent),
        (0, .press .percent)]).keypad.expression = .error (.invalidCharacter 'e') := by
    decide +kernel
  rw [hrefused] at ht
  cases ht

end Session

end KeypadCalc
