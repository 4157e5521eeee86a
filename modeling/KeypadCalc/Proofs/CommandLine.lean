import KeypadCalc.CommandLine
import KeypadCalc.Proofs.Console.Composing
import KeypadCalc.Proofs.Console.Typing

/-! What a run of the program leaves as it is. Files are touched only in recording a result or in
clearing the history, so a run that comes to neither leaves all of them, whatever it is asked for
and whatever it finds. -/

namespace KeypadCalc

/-! ### Actions -/

namespace Session

/-- The history stays as it is through actions none of which clears it or finds a value that is
recorded. -/
theorem history_run_eq_self {s : Session} {steps : List (Int64 × Action)}
    (h : ∀ before now action after, steps = before ++ (now, action) :: after →
      action ≠ .clearHistory ∧
        (s.records = false ∨ ∀ v, ((s.run before).act now action).1 ≠ .ok (some v))) :
    (s.run steps).history = s.history := by
  induction steps using List.reverseRecOn with
  | nil => rfl
  | append_singleton front step ih =>
    obtain ⟨now, action⟩ := step
    obtain ⟨hclear, hvalue⟩ := h front now action [] rfl
    have hlast : (s.run (front ++ [(now, action)])).history = (s.run front).history := by
      rw [run, List.foldl_append, ← run]
      rw [← records_run s front] at hvalue
      exact history_act_eq_self hclear hvalue
    refine hlast.trans (ih fun before now' action' after hsplit => ?_)
    exact h before now' action' (after ++ [(now, action)]) (by rw [hsplit]; simp)

/-- Only the equals key can come to a value. -/
theorem history_press (s : Session) (now : Int64) {key : Key} (h : key ≠ .equals) :
    (s.press now key).2.history = s.history := by
  cases key with
  | equals => exact absurd rfl h
  | char | backspace | clear | percent => rfl

end Session

/-! ### The console -/

namespace Console

variable {s : Session} {now : Int64} {c : Command} {t : Text} {ls : List Bytes}

/-- A command gets to the storage: it clears the history, or an equals key among its keys gives a
value while results are recorded. -/
def Command.Stores (now : Int64) (s : Session) : Command → Prop
  | .keys t => s.records = true ∧ ∃ front rest v, t = front ++ '=' :: rest ∧
      ((pressAll now s front).1.commit now).1 = .ok (some v)
  | .clearHistory => True
  | _ => False

/-- Among some lines there is one that is reached, the ones before it having been worked off, and
the session it finds is `s'` and it asks for `c`. -/
def Reaches (now : Int64) (s : Session) (ls : List Bytes) (s' : Session) (c : Command) : Prop :=
  ∃ before line after t, ls = before ++ line :: after ∧
    (runLines now s before).ending = .exhausted ∧ (runLines now s before).session = s' ∧
    Utf8.decode? line = some t ∧ Command.ofLine t = c

theorem history_pressAll (h : ¬(Command.keys t).Stores now s) :
    (pressAll now s t).1.history = s.history := by
  rw [session_pressAll]
  refine Session.history_run_eq_self fun before now' action after hsplit => ?_
  obtain ⟨front, others, rfl, rfl, hothers⟩ := List.map_eq_append_iff.1 hsplit
  obtain ⟨c, rest, rfl, hstep, -⟩ := List.map_eq_cons_iff.1 hothers
  cases hstep
  refine ⟨nofun, ?_⟩
  rw [or_iff_not_imp_left, Bool.not_eq_false]
  intro hrecords v hv
  by_cases hc : c = '='
  · subst hc
    exact h ⟨hrecords, front, rest, v, rfl, by rw [session_pressAll]; exact hv⟩
  · rw [keyOf, if_neg hc] at hv
    cases hv

theorem history_execute (h : ¬c.Stores now s) :
    (execute now s c).session.history = s.history := by
  cases c with
  | keys t => exact history_pressAll h
  | clear | back | percent => exact Session.history_press s now nofun
  | use n =>
    rw [execute]
    split <;> rfl
  | clearHistory => exact absurd trivial h
  | history | quit | unknown => rfl

theorem history_runLines_singleton {line : Bytes}
    (h : ∀ t, Utf8.decode? line = some t → ¬(Command.ofLine t).Stores now s) :
    (runLines now s [line]).session.history = s.history := by
  rw [runLines]
  cases ht : Utf8.decode? line with
  | none => rfl
  | some t =>
    have hsame := history_execute (h t ht)
    simp only
    split <;> exact hsame

theorem history_runLines (h : ∀ s' c, Reaches now s ls s' c → ¬c.Stores now s') :
    (runLines now s ls).session.history = s.history := by
  induction ls using List.reverseRecOn with
  | nil => rfl
  | append_singleton ls line ih =>
    have hbefore : (runLines now s ls).session.history = s.history := by
      refine ih fun s' c hreaches => ?_
      obtain ⟨before, line', after, t, rfl, hreaches⟩ := hreaches
      exact h s' c ⟨before, line', after ++ [line], t, by simp, hreaches⟩
    rw [runLines_append]
    by_cases hends : (runLines now s ls).ending = .exhausted
    · rw [Outcome.andThen_of_exhausted hends]
      refine (history_runLines_singleton fun t ht => ?_).trans hbefore
      exact h _ _ ⟨ls, line, [], t, rfl, hends, rfl, ht, rfl⟩
    · rw [Outcome.andThen_of_ended hends]
      exact hbefore

end Console

/-! ### Runs -/

namespace CommandLine

variable {env : Environment} {tree : FileTree} {inv : Invocation} {task : Task} {s : Session}
  {now : Int64} {input : Bytes}

/-- A command gets to the storage of a session: it clears the history, evaluates a text that has a
value while results are recorded, or has the console read a line that does either. -/
def Command.Stores (now : Int64) (input : Bytes) (s : Session) : Command → Prop
  | .eval expression _ noHistory => s.records = true ∧ noHistory = false ∧
      ∃ v, (s.commitText now expression).1 = .ok (some v)
  | .preview _ | .history _ => False
  | .clearHistory => True
  | .repl => ∃ s' c, Console.Reaches now s (Console.lines input) s' c ∧ c.Stores now s'

theorem history_evaluate {expression : Text} (h : s.records = false ∨
    ∀ v, (s.commitText now expression).1 ≠ .ok (some v)) (copy : Bool) :
    (evaluate now s expression copy).2.history = s.history := by
  have hsame : (s.commitText now expression).2.history = s.history :=
    @Session.history_act_eq_self s now (.commitText expression) nofun h
  unfold evaluate
  split
  all_goals
    rename_i hcommit
    rw [hcommit] at hsame
  · split <;> exact hsame
  · exact hsame
  · exact hsame

theorem history_perform (h : ¬task.command.Stores now input task.session) :
    (task.perform now input).2.history = task.session.history := by
  obtain ⟨command, s⟩ := task
  cases command with
  | eval expression copy noHistory =>
    refine history_evaluate ?_ copy
    rw [or_iff_not_imp_left, Bool.not_eq_false, Bool.and_eq_true, Bool.not_eq_true']
    rintro ⟨hrecords, hkeeps⟩ v hv
    -- Whether the value is recorded does not matter to what it is.
    have hoff := (Session.act_keypad { s with records := s.records && !noHistory } now
      (.commitText expression)).1
    have hon := (Session.act_keypad s now (.commitText expression)).1
    exact h ⟨hrecords, hkeeps, v, hon.trans (hoff.symm.trans hv)⟩
  | preview expression => rfl
  | history json => rfl
  | clearHistory => exact absurd trivial h
  | repl => exact Console.history_runLines fun s' c hreaches hstores => h ⟨s', c, hreaches, hstores⟩

theorem prepare_eq_ok (h : prepare env tree inv = .ok task) :
    ∃ config root, configFor env tree inv = .ok config ∧
      dataDirFor env config inv = some root ∧ task = ⟨inv.command,
        .new (config.historyIn (.directory tree root)) config.history.enabled⟩ := by
  unfold prepare at h
  split at h
  · cases h
  · rename_i config hconfig
    split at h
    · cases h
    · rename_i root hroot
      exact ⟨config, root, hconfig, hroot, (Except.ok.inj h).symm⟩

/-- A run leaves all files as they are unless its arguments are understood, its settings can be read
and name a directory, and its command gets to the storage there. -/
theorem run_snd_eq_self_or (env : Environment) (now : Int64) (tree : FileTree) (args : List Text)
    (input : Bytes) :
    (run env now tree args input).2 = tree ∨
      ∃ inv config root, Invocation.ofArguments args = .ok inv ∧
        configFor env tree inv = .ok config ∧ dataDirFor env config inv = some root ∧
        inv.command.Stores now input
          (.new (config.historyIn (.directory tree root)) config.history.enabled) := by
  unfold run
  split
  · exact .inl rfl
  · rename_i inv hargs
    split
    · exact .inl rfl
    · rename_i task htask
      obtain ⟨config, root, hconfig, hroot, htask⟩ := prepare_eq_ok htask
      rw [or_iff_not_imp_right]
      intro hnot
      have hstores : ¬task.command.Stores now input task.session := fun hstores => by
        rw [htask] at hstores
        exact hnot ⟨inv, config, root, hargs, hconfig, hroot, hstores⟩
      show (task.perform now input).2.history.storage.tree?.getD tree = tree
      rw [history_perform hstores, htask]
      rfl

/-- A sum that is recorded, and one that is not. -/
example :
    let env : Environment := ⟨[], some "/home".toList, none, none⟩
    let tree := FileTree.empty .common
    (run env 1 tree ["eval".toList, "2+2".toList] []).2 ≠ tree ∧
      (run env 1 tree ["eval".toList, "2+2".toList, "--no-history".toList] []).2 = tree := by
  decide +kernel

end CommandLine

end KeypadCalc
