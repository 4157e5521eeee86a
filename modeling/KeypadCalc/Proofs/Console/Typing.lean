import KeypadCalc.Proofs.Console.Commands
import KeypadCalc.Proofs.Console.Lines
import KeypadCalc.Proofs.Session.ErrorMark
import KeypadCalc.Proofs.Session.Timing

/-! Typing at the console. A line that is no command presses a key for each of its characters, and
blanks have no key. So an input without commands does what its characters do when they are typed one
after another, however it is broken into lines. -/

namespace KeypadCalc

theorem Keypad.not_isBlank_of_hasKey {c : Char} (h : hasKey c = true) :
    Text.isBlank c = false := by
  simp only [hasKey, Bool.or_eq_true, beq_iff_eq] at h
  rcases h with ((htypable | rfl) | rfl) | rfl
  · exact isBlank_of_isTypable htypable
  all_goals decide

namespace Console

open Session (Action)

variable {s : Session} {now : Int64} {input : Bytes} {t u v : Text} {c : Char}

/-! ### Keys -/

/-- The key that a character of a line stands for. -/
def keyOf (c : Char) : Key := if c = '=' then .equals else .char c

/-- Typing a text at the time `now`: a key is pressed for each character. -/
def typing (now : Int64) (t : Text) : List (Int64 × Action) :=
  t.map fun c => (now, .press (keyOf c))

theorem session_pressChar (now : Int64) (s : Session) (c : Char) :
    (pressChar now s c).1 = (s.act now (.press (keyOf c))).2 := by
  unfold pressChar keyOf
  split
  · show _ = (s.commit now).2
    cases (s.commit now) with
    | mk outcome s => cases outcome <;> rfl
  · rfl

theorem session_pressAll (now : Int64) (s : Session) (t : Text) :
    (pressAll now s t).1 = s.run (typing now t) := by
  induction t generalizing s with
  | nil => rfl
  | cons c t ih =>
    show (pressAll now (pressChar now s c).1 t).1 = _
    rw [ih, session_pressChar]
    rfl

/-! ### Blanks -/

theorem act_of_isBlank (hc : Text.isBlank c = true) (s : Session) (now : Int64) :
    (s.act now (.press (keyOf c))).2 = s := by
  have hkey : Keypad.hasKey c = false := by
    by_contra hkey
    rw [Keypad.not_isBlank_of_hasKey (by simpa using hkey)] at hc
    cases hc
  have hne : c ≠ '=' := by
    rintro rfl
    exact absurd hc (by decide)
  show (s.press now (keyOf c)).2 = s
  rw [keyOf, if_neg hne]
  show s.withKeypad (s.keypad.input c) = s
  rw [Keypad.input_of_not_hasKey hkey]
  rfl

theorem run_typing_filter (s : Session) (now : Int64) (t : Text) :
    s.run (typing now (t.filter fun c => !Text.isBlank c)) = s.run (typing now t) := by
  induction t generalizing s with
  | nil => rfl
  | cons c t ih =>
    cases hc : Text.isBlank c with
    | false =>
      rw [List.filter_cons_of_pos (by simp [hc])]
      exact ih _
    | true =>
      rw [List.filter_cons_of_neg (by simp [hc]), ih]
      show _ = (s.act now (.press (keyOf c))).2.run (typing now t)
      rw [act_of_isBlank hc]

/-- Typing a text comes to the same as typing another one that differs in blanks only. -/
theorem run_typing_congr (h : (t.filter fun c => !Text.isBlank c) =
    u.filter fun c => !Text.isBlank c) : s.run (typing now t) = s.run (typing now u) := by
  rw [← run_typing_filter, h, run_typing_filter]

theorem run_typing_append (s : Session) (now : Int64) (t u : Text) :
    s.run (typing now (t ++ u)) = (s.run (typing now t)).run (typing now u) := by
  rw [typing, List.map_append, Session.run, List.foldl_append]
  rfl

/-! ### Lines of keys -/

/-- No line of a text begins with a colon, blanks apart. -/
def IsKeys (t : Text) : Prop :=
  ∀ line ∈ t.splitOn '\n', line.find? (fun c => !Text.isBlank c) ≠ some ':'

instance : DecidablePred IsKeys := fun t =>
  inferInstanceAs (Decidable (∀ line ∈ t.splitOn '\n',
    line.find? (fun c => !Text.isBlank c) ≠ some ':'))

theorem runLines_cons_of_keys (h : Command.ofLine v = .keys u) (s : Session) (now : Int64)
    (ls : List Bytes) :
    (runLines now s (Utf8.encode v :: ls)).ending =
        (runLines now (s.run (typing now u)) ls).ending ∧
      (runLines now s (Utf8.encode v :: ls)).session =
        (runLines now (s.run (typing now u)) ls).session := by
  rw [runLines, Utf8.decode?_encode]
  simp only [h, execute, Reply.onScreen, if_true, session_pressAll, and_self]

theorem runLines_of_isKeys (h : IsKeys t) (s : Session) (now : Int64) :
    (runLines now s (lines (Utf8.encode t))).ending = .exhausted ∧
      (runLines now s (lines (Utf8.encode t))).session = s.run (typing now t) := by
  induction t using cut_induction '\n' generalizing s with
  | last t ht =>
    rcases eq_or_ne t [] with rfl | hne
    · rw [Utf8.encode_nil, lines_nil]
      exact ⟨rfl, rfl⟩
    · have hline : t.find? (fun c => !Text.isBlank c) ≠ some ':' :=
        h t (by rw [List.splitOn_eq_singleton ht]; exact List.mem_singleton_self t)
      obtain ⟨hending, hsession⟩ :=
        runLines_cons_of_keys (Command.ofLine_of_keys hline) s now []
      rw [lines_encode_last hne ht, hending, hsession]
      exact ⟨rfl, run_typing_congr (Text.filter_trim t)⟩
  | cut t rest ht ih =>
    rw [IsKeys, List.splitOn_append_cons_self_of_not_mem ht, List.forall_mem_cons] at h
    obtain ⟨hline, hrest⟩ := h
    have hkeys : Command.ofLine (unreturned t) = .keys (Text.trim t) :=
      (Command.ofLine_congr (trim_unreturned t)).trans (Command.ofLine_of_keys hline)
    obtain ⟨hending, hsession⟩ := runLines_cons_of_keys hkeys s now (lines (Utf8.encode rest))
    rw [lines_encode_cut ht, hending, hsession]
    obtain ⟨hexhausted, hafter⟩ := ih hrest (s.run (typing now (Text.trim t)))
    refine ⟨hexhausted, hafter.trans ?_⟩
    rw [run_typing_append, run_typing_congr (Text.filter_trim t)]
    exact run_typing_congr rfl

/-- An input of any number of lines, none of which begins with a colon, is read to its end, and
leaves the session as typing all of its characters would. So it does not matter how it is broken
into lines and where these have blanks; and when the keys are pressed makes no difference either,
but for the times of the results that are recorded. -/
theorem run_of_isKeys (now : Int64) (s : Session) (hinput : Utf8.decode? input = some t)
    (hkeys : IsKeys t) :
    let after := run now s input
    after.ending = .exhausted ∧ after.session = s.run (typing now t) ∧
    (∀ input' t', Utf8.decode? input' = some t' → IsKeys t' →
      (t'.filter fun c => !Text.isBlank c) = (t.filter fun c => !Text.isBlank c) →
      (run now s input').ending = .exhausted ∧ (run now s input').session = after.session) ∧
    ∀ steps : List (Int64 × Action),
      steps.map Prod.snd = (t.map fun c => Action.press (keyOf c)) →
      (s.run steps).keypad = after.session.keypad ∧
        (s.history.Works →
          (s.run steps).entries.map Entry.untimed = after.session.entries.map Entry.untimed) := by
  have hrun : ∀ {input' t'}, Utf8.decode? input' = some t' → IsKeys t' →
      (run now s input').ending = .exhausted ∧
        (run now s input').session = s.run (typing now t') := by
    intro input' t' hinput' hkeys'
    rw [Utf8.decode?_eq_some_iff.1 hinput']
    exact runLines_of_isKeys hkeys' s now
  intro after
  obtain ⟨hending, hsession⟩ := hrun hinput hkeys
  refine ⟨hending, hsession, fun input' t' hinput' hkeys' hsame => ?_, fun steps hsteps => ?_⟩
  · obtain ⟨hending', hsession'⟩ := hrun hinput' hkeys'
    exact ⟨hending', hsession'.trans ((run_typing_congr hsame).trans hsession.symm)⟩
  · have hactions : steps.map Prod.snd = (typing now t).map Prod.snd := by
      rw [hsteps, typing, List.map_map]
      rfl
    rw [show after.session = s.run (typing now t) from hsession]
    refine ⟨?_, fun hworks => ((Session.Alike.refl hworks).run hactions).entries⟩
    rw [Session.keypad_run, Session.keypad_run, hactions]

/-- A division that is committed too early fails, and is completed on the next line. -/
theorem run_of_isKeys_over_three_lines :
    let s := Session.new (.new (.memory []) History.defaultKey 5) true
    let t := " 7÷\r\n =\n\t2:=".toList
    let u := "7÷=2:=".toList
    let after := run 1 s (Utf8.encode t)
    after.ending = .exhausted ∧ after.session = s.run (typing 1 t) ∧
      (run 1 s (Utf8.encode u)).session = after.session ∧
      after.session.keypad = ⟨['3', '.', '5'], some 3.5, false⟩ ∧
      (s.run (typing 2 t)).entries.map Entry.untimed = [(['7', '/', '2'], 3.5)] := by
  intro s t u after
  have hkeys : IsKeys t ∧ IsKeys u := by decide
  obtain ⟨hending, hsession, hlayout, htimes⟩ :=
    run_of_isKeys 1 s (Utf8.decode?_encode t) hkeys.1
  obtain ⟨-, hsame⟩ := hlayout _ u (Utf8.decode?_encode u) hkeys.2 (by decide)
  have hactions : (typing 2 t).map Prod.snd = t.map fun c => Action.press (keyOf c) := rfl
  have hworks : s.history.Works := ⟨by decide, .memory []⟩
  refine ⟨hending, hsession, hsame, ?_, ?_⟩
  · decide +kernel
  · rw [(htimes _ hactions).2 hworks]
    decide +kernel

end Console

end KeypadCalc
