import KeypadCalc.Proofs.Session.Separation

/-! What time does to a session. It is put down with each result and decides nothing else: two
sessions that list the same, times apart, still do after the same actions at other times. -/

namespace KeypadCalc

/-- An entry without its time. -/
def Entry.untimed (e : Entry) : Text × Float := (e.expression, e.result)

theorem Entry.map_untimed_reloaded {es₁ es₂ : List Entry}
    (h : es₁.map untimed = es₂.map untimed) :
    (es₁.map reloaded).map untimed = (es₂.map reloaded).map untimed := by
  have hreloaded : ∀ es : List Entry, (es.map reloaded).map untimed =
      (es.map untimed).map fun p => (p.1, reread p.2) := by
    intro es
    rw [List.map_map, List.map_map]
    rfl
  rw [hreloaded, hreloaded, h]

namespace Session

variable {s s₁ s₂ : Session} {action : Action} {now : Int64}

/-- The keypad of a session goes through the actions by itself. -/
theorem keypad_run (s : Session) (steps : List (Int64 × Action)) :
    (s.run steps).keypad =
      (steps.map Prod.snd).foldl (fun k action => (k.act action).2) s.keypad := by
  induction steps generalizing s with
  | nil => rfl
  | cons step steps ih =>
    rw [List.map_cons, List.foldl_cons, ← (act_keypad s step.1 step.2).2]
    exact ih _

/-- Two sessions show the same, record results alike, and list the same, times apart. -/
structure Alike (s₁ s₂ : Session) : Prop where
  keypad : s₁.keypad = s₂.keypad
  records : s₁.records = s₂.records
  capacity : s₁.history.capacity = s₂.history.capacity
  works₁ : s₁.history.Works
  works₂ : s₂.history.Works
  entries : s₁.entries.map Entry.untimed = s₂.entries.map Entry.untimed

theorem Alike.refl (h : s.history.Works) : s.Alike s := ⟨rfl, rfl, rfl, h, h, rfl⟩

theorem committed?_congr (h : s₁.keypad = s₂.keypad) :
    s₁.committed? action = s₂.committed? action := by
  unfold committed?
  rw [h]

theorem history_act_works (hw : s.history.Works) (now : Int64) (action : Action) :
    (s.act now action).2.history.Works ∧
      (s.act now action).2.history.capacity = s.history.capacity := by
  obtain ⟨st, hst, hact, -⟩ := history_act hw now action
  rw [hact]
  exact ⟨⟨hw.1, hst⟩, rfl⟩

theorem entries_act_clearHistory (hw : s.history.Works) (now : Int64) :
    (s.act now .clearHistory).2.entries = [] := by
  obtain ⟨st, -, hclear, hentries⟩ := History.clear_spec hw
  exact (congrArg (fun h => h.2.entries) hclear).trans hentries

/-- The history lists a result that has been recorded with its text, and as many others as it may
hold. -/
theorem entries_act_of_value {v : Float} (hw : s.history.Works)
    (hrecords : s.records = true) (h : (s.act now action).1 = .ok (some v)) :
    ∃ text, s.committed? action = some text ∧ (s.act now action).2.entries =
      ((s.entries ++ [Entry.mk text v now]).rtake s.history.capacity).map Entry.reloaded := by
  obtain ⟨text, hcommitted, hvalue, hhistory⟩ := act_eq_ok_some h
  obtain ⟨st, -, happend, hentries⟩ :=
    History.append_spec (e := ⟨text, v, now⟩) hw (Evaluation.isFinite_of_evaluate hvalue)
  refine ⟨text, hcommitted, ?_⟩
  rw [entries, hhistory hrecords, happend]
  exact hentries

theorem Alike.act (h : s₁.Alike s₂) (now₁ now₂ : Int64) (action : Action) :
    (s₁.act now₁ action).2.Alike (s₂.act now₂ action).2 := by
  obtain ⟨houtcome₁, hkeypad₁⟩ := act_keypad s₁ now₁ action
  obtain ⟨houtcome₂, hkeypad₂⟩ := act_keypad s₂ now₂ action
  obtain ⟨hworks₁, hcapacity₁⟩ := history_act_works h.works₁ now₁ action
  obtain ⟨hworks₂, hcapacity₂⟩ := history_act_works h.works₂ now₂ action
  have houtcome : (s₁.act now₁ action).1 = (s₂.act now₂ action).1 := by
    rw [houtcome₁, houtcome₂, h.keypad]
  refine ⟨?_, ?_, ?_, hworks₁, hworks₂, ?_⟩
  · rw [hkeypad₁, hkeypad₂, h.keypad]
  · rw [records_act, records_act, h.records]
  · rw [hcapacity₁, hcapacity₂, h.capacity]
  by_cases hclear : action = .clearHistory
  · subst hclear
    rw [entries_act_clearHistory h.works₁, entries_act_clearHistory h.works₂]
  by_cases hfound : s₁.records = true ∧ ∃ v, (s₁.act now₁ action).1 = .ok (some v)
  · obtain ⟨hrecords, v, hv⟩ := hfound
    obtain ⟨text₁, htext₁, hentries₁⟩ := entries_act_of_value h.works₁ hrecords hv
    obtain ⟨text₂, htext₂, hentries₂⟩ :=
      entries_act_of_value h.works₂ (h.records ▸ hrecords) (houtcome ▸ hv)
    rw [committed?_congr h.keypad, htext₂] at htext₁
    cases htext₁
    rw [hentries₁, hentries₂]
    refine Entry.map_untimed_reloaded ?_
    rw [History.map_rtake, History.map_rtake, List.map_append, List.map_append, h.entries,
      h.capacity]
    rfl
  · rw [not_and_or, Bool.not_eq_true, not_exists] at hfound
    have hfound₂ : s₂.records = false ∨ ∀ v, (s₂.act now₂ action).1 ≠ .ok (some v) := by
      rw [← h.records, ← houtcome]
      exact hfound
    have hsame₁ := congrArg History.entries (history_act_eq_self hclear hfound)
    have hsame₂ := congrArg History.entries (history_act_eq_self hclear hfound₂)
    exact (congrArg _ hsame₁).trans (h.entries.trans (congrArg _ hsame₂.symm))

/-- Sessions that are alike stay so whatever is done with both, and whenever. -/
theorem Alike.run (h : s₁.Alike s₂) {steps₁ steps₂ : List (Int64 × Action)}
    (hactions : steps₁.map Prod.snd = steps₂.map Prod.snd) :
    (s₁.run steps₁).Alike (s₂.run steps₂) := by
  induction steps₁ generalizing s₁ s₂ steps₂ with
  | nil =>
    cases List.map_eq_nil_iff.1 hactions.symm
    exact h
  | cons step steps₁ ih =>
    cases steps₂ with
    | nil => cases hactions
    | cons step' steps₂ =>
      obtain ⟨hfirst, hrest⟩ := List.cons.inj hactions
      have hnext := h.act step.1 step'.1 step.2
      have hstep : (s₂.act step'.1 step.2).2 = (s₂.act step'.1 step'.2).2 := by rw [hfirst]
      rw [hstep] at hnext
      exact ih hnext hrest

end Session

end KeypadCalc
