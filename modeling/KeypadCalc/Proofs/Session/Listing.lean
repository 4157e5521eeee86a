import KeypadCalc.History.Listing
import KeypadCalc.Proofs.Console.Recalling
import KeypadCalc.Proofs.Session.Editing
import KeypadCalc.Proofs.Session.Timing

/-! The lines of a listed history. An entry takes one line, under its number, if there is no line
feed in its expression. Keys and recalled results bring in none. Only a text that is committed from
elsewhere can: a line feed is a blank, and an expression may hold blanks. -/

namespace KeypadCalc

variable {t t' : Text} {c : Char} {v : Float}

/-! ### Lines -/

namespace Text

/-- The lines of a text in which each line ends in a line feed. -/
def lines (t : Text) : List Text := (t.splitOn '\n').dropLast

theorem lines_append (row rest : Text) :
    lines (row ++ '\n' :: rest) = row.splitOn '\n' ++ lines rest := by
  simp only [lines, List.splitOn_eq_splitOnP]
  rw [List.splitOnP_append_cons row rest (by simp),
    List.dropLast_append_of_ne_nil (List.splitOnP_ne_nil _ _)]

theorem lines_flatMap (rows : List Text) :
    lines (rows.flatMap (· ++ ['\n'])) = rows.flatMap (·.splitOn '\n') := by
  induction rows with
  | nil => rfl
  | cons row rows ih =>
    rw [List.flatMap_cons, List.flatMap_cons, List.append_assoc, List.singleton_append,
      lines_append, ih]

theorem length_splitOn (t : Text) : (t.splitOn '\n').length = t.count '\n' + 1 := by
  induction t with
  | nil => rfl
  | cons c t ih =>
    rw [List.splitOn_eq_splitOnP] at ih ⊢
    rw [List.splitOnP_cons_eq_if_modifyHead, List.count_cons]
    split
    · rw [List.length_cons, ih]
    · rw [List.length_modifyHead, ih]

theorem length_flatMap_splitOn (rows : List Text) :
    (rows.flatMap (·.splitOn '\n')).length =
      rows.length + (rows.map (·.count '\n')).sum := by
  induction rows with
  | nil => rfl
  | cons row rows ih =>
    rw [List.flatMap_cons, List.length_append, length_splitOn, ih, List.length_cons,
      List.map_cons, List.sum_cons]
    omega

/-- Rows are lines exactly if none has a line feed in it. -/
theorem flatMap_splitOn_eq_iff (rows : List Text) :
    rows.flatMap (·.splitOn '\n') = rows ↔ ∀ row ∈ rows, '\n' ∉ row := by
  constructor
  · intro heq row hrow
    have hlength := length_flatMap_splitOn rows
    rw [heq, Nat.left_eq_add] at hlength
    exact List.count_eq_zero.1 (List.sum_eq_zero_iff.1 hlength _ (List.mem_map_of_mem hrow))
  · intro h
    calc
      _ = rows.flatMap fun row => [row] := List.flatMap_congr fun row hrow =>
        List.splitOn_eq_singleton (h row hrow)
      _ = rows := List.flatMap_singleton' rows

end Text

/-! ### Characters without a line feed -/

namespace NumberText

theorem newline_notMem_digits {ds : Text} (h : ∀ c ∈ ds, c.isDigit = true) : '\n' ∉ ds :=
  fun hmem => absurd (h _ hmem) (by decide)

theorem newline_notMem_of_isLiteral (h : Sanitizer.IsLiteral t) : '\n' ∉ t := by
  intro hmem
  rcases h.forall_mem _ hmem with hdigit | hpoint
  · exact absurd hdigit (by decide)
  · exact absurd hpoint (by decide)

theorem newline_notMem_of_isMagnitude (h : IsMagnitude t) : '\n' ∉ t := by
  cases h with
  | literal hu => exact newline_notMem_of_isLiteral hu
  | power hu hsign hds =>
    rcases hsign with rfl | rfl <;>
      simp [newline_notMem_of_isLiteral hu, newline_notMem_digits hds]
  | infinity | nan => decide

theorem newline_notMem_plain (v : Float) : '\n' ∉ plain v := by
  rcases plain_cases v with ⟨-, h⟩ | ⟨-, h | ⟨m, h, hm⟩⟩
  · exact newline_notMem_of_isMagnitude h
  · rw [h]
    decide
  · rw [h]
    simp [newline_notMem_of_isMagnitude hm]

theorem newline_notMem_display (v : Float) : '\n' ∉ display v := by
  simp only [display]
  split
  · exact newline_notMem_plain v
  · exact newline_notMem_plain _

end NumberText

/-! ### Listed entries -/

namespace Entry

variable {es : List Entry} {e : Entry} {n : ℕ}

/-- What is listed for an entry, up to the line feed at its end. -/
def row (number : ℕ) (e : Entry) : Text :=
  List.replicate (3 - (Decimal.digits number).length) ' ' ++ Decimal.digits number ++
    ['.', ' '] ++ e.expression ++ [' ', '=', ' '] ++ NumberText.display e.result

theorem toList_line (number : ℕ) (e : Entry) :
    (line number e).toList = row number e ++ ['\n'] := by
  simp [line, row]

/-- A row begins with the number of its entry, blanks apart, and a point and a blank after it. -/
theorem prefix_row (number : ℕ) (e : Entry) :
    Decimal.digits number ++ ['.', ' '] <+: (row number e).dropWhile (· == ' ') := by
  obtain ⟨d, ds, hcons⟩ := List.exists_cons_of_ne_nil (Json.digits_ne_nil number)
  have hd : (d == ' ') = false := by
    have hdigit := Json.digits_isDigit number d (by simp [hcons])
    refine beq_false_of_ne ?_
    rintro rfl
    exact absurd hdigit (by decide)
  refine ⟨e.expression ++ [' ', '=', ' '] ++ NumberText.display e.result, ?_⟩
  simp only [row, List.append_assoc]
  rw [List.dropWhile_append_of_pos (by simp), hcons, List.cons_append, List.cons_append,
    List.dropWhile_cons_of_neg (by simp [hd])]

theorem count_row (number : ℕ) (e : Entry) :
    (row number e).count '\n' = e.expression.count '\n' := by
  have hdigits : '\n' ∉ Decimal.digits number :=
    NumberText.newline_notMem_digits (Json.digits_isDigit number)
  simp [row, List.count_eq_zero_of_not_mem hdigits, List.count_replicate,
    List.count_eq_zero_of_not_mem (NumberText.newline_notMem_display e.result)]

theorem newline_mem_row_iff (number : ℕ) (e : Entry) :
    '\n' ∈ row number e ↔ '\n' ∈ e.expression := by
  rw [← List.count_pos_iff, count_row, List.count_pos_iff]

/-- The rows of a listing, newest entry first. -/
def rows (es : List Entry) : List Text := (numbered es).map fun p => row p.1 p.2

theorem length_rows (es : List Entry) : (rows es).length = es.length := by
  rw [rows, List.length_map, ← List.length_map Prod.snd, map_snd_numbered, List.length_reverse]

theorem getElem?_rows (es : List Entry) (i : ℕ) :
    (rows es)[i]? = es.reverse[i]?.map (row (i + 1)) := by
  rw [rows, List.getElem?_map, getElem?_numbered, Option.map_map]
  rfl

theorem map_count_rows (es : List Entry) :
    ((rows es).map (·.count '\n')).sum = (es.map fun e => e.expression.count '\n').sum := by
  have hcount : (rows es).map (·.count '\n') =
      ((numbered es).map Prod.snd).map fun e => e.expression.count '\n' := by
    simp only [rows, List.map_map, Function.comp_def, count_row]
  rw [hcount, map_snd_numbered, List.map_reverse, List.sum_reverse]

theorem newline_notMem_rows_iff :
    (∀ row ∈ rows es, '\n' ∉ row) ↔ ∀ e ∈ es, '\n' ∉ e.expression := by
  have hmem : ∀ e, e ∈ es ↔ e ∈ (numbered es).map Prod.snd := by
    intro e
    rw [map_snd_numbered, List.mem_reverse]
  simp only [hmem, rows, List.forall_mem_map, newline_mem_row_iff]

theorem toList_listing (hne : es ≠ []) :
    (listing es).toList = (rows es).flatMap (· ++ ['\n']) := by
  have hempty : ¬es.isEmpty = true := by rwa [List.isEmpty_iff]
  rw [listing, if_neg hempty, String.toList_join, rows, List.flatMap_map, List.flatMap_map]
  simp only [toList_line]

theorem lines_listing (hne : es ≠ []) :
    Text.lines (listing es).toList = (rows es).flatMap (·.splitOn '\n') := by
  rw [toList_listing hne, Text.lines_flatMap]

theorem length_lines_listing (hne : es ≠ []) :
    (Text.lines (listing es).toList).length =
      es.length + (es.map fun e => e.expression.count '\n').sum := by
  rw [lines_listing hne, Text.length_flatMap_splitOn, length_rows, map_count_rows]

/-- Each entry is listed on a line of its own exactly if no expression has a line feed in it. -/
theorem lines_listing_eq_iff (hne : es ≠ []) :
    Text.lines (listing es).toList = rows es ↔ ∀ e ∈ es, '\n' ∉ e.expression := by
  rw [lines_listing hne, Text.flatMap_splitOn_eq_iff, newline_notMem_rows_iff]

theorem lines_listing_nil : Text.lines (listing []).toList = ["No history yet".toList] := by
  decide

end Entry

/-! ### The expression of a keypad -/

namespace Keypad

variable {k : Keypad}

theorem newline_notMem_typedText? (h : '\n' ∉ t) (ht : typedText? t c = some t') : '\n' ∉ t' := by
  rcases typedText?_eq ht with rfl | ⟨front, d, hfront, hd, rfl⟩
  · exact h
  · refine List.not_mem_append (mt hfront.mem h) ?_
    rw [List.mem_singleton]
    rintro rfl
    exact absurd hd (by decide)

theorem newline_notMem_of_edits (h : Edits t t') (ht : '\n' ∉ t) : '\n' ∉ t' := by
  cases h with
  | same => exact ht
  | typed htyped => exact newline_notMem_typedText? ht htyped
  | dropLast => exact mt List.mem_of_mem_dropLast ht
  | cleared => exact List.not_mem_nil
  | number v => exact NumberText.newline_notMem_plain v

theorem newline_notMem_percent (h : '\n' ∉ k.expression) : '\n' ∉ k.percent.expression := by
  rcases percent_cases k with ⟨-, hpercent⟩ | ⟨-, hpercent⟩ | ⟨front, v, hsome, hpercent⟩ <;>
    rw [hpercent]
  · exact List.not_mem_cons_of_ne_of_not_mem (by decide) List.not_mem_nil
  · exact h
  · obtain ⟨numeral, hsplit, -⟩ := exists_of_dividend? hsome
    rw [← splitNumeral?_append hsplit, List.mem_append, not_or] at h
    exact List.not_mem_append h.1 (NumberText.newline_notMem_plain _)

end Keypad

namespace Session

variable {s : Session} {now : Int64} {action : Action} {text : Text}
  {steps : List (Int64 × Action)}

/-! ### What is recorded -/

theorem keptOnKeypad_newline_notMem : KeptOnKeypad ('\n' ∉ ·) :=
  ⟨Keypad.newline_notMem_of_edits, Keypad.newline_notMem_percent⟩

/-- A history that works, and no line feed in the expression or in those of the entries. -/
structure OnOneLine (s : Session) : Prop where
  works : s.history.Works
  expression : '\n' ∉ s.keypad.expression
  entries : ∀ e ∈ s.entries, '\n' ∉ e.expression

theorem OnOneLine.act (h : s.OnOneLine) (haction : action.CommitsWith ('\n' ∉ ·)) (now : Int64) :
    (s.act now action).2.OnOneLine where
  works := (history_act_works h.works now action).1
  expression := keptOnKeypad_newline_notMem.act haction h.expression now
  entries := by
    by_cases hclear : action = .clearHistory
    · subst hclear
      rw [entries_act_clearHistory h.works]
      exact List.forall_mem_nil _
    by_cases hfound : s.records = true ∧ ∃ v, (s.act now action).1 = .ok (some v)
    · obtain ⟨hrecords, v, hv⟩ := hfound
      obtain ⟨text, hcommitted, hentries⟩ := entries_act_of_value h.works hrecords hv
      rw [hentries, List.forall_mem_map]
      intro e he
      rcases List.mem_append.1 (List.mem_of_mem_drop he) with hold | hnew
      · exact h.entries e hold
      · rw [List.mem_singleton.1 hnew]
        exact holds_of_committed? hcommitted haction h.expression
    · rw [not_and_or, Bool.not_eq_true, not_exists] at hfound
      rw [Session.entries, history_act_eq_self hclear hfound]
      exact h.entries

theorem OnOneLine.run (h : s.OnOneLine) (hsteps : ∀ step ∈ steps, step.2.CommitsWith ('\n' ∉ ·)) :
    (s.run steps).OnOneLine :=
  run_invariant OnOneLine (fun haction hs now => hs.act haction now) hsteps h

/-- A text that is recorded is listed right afterwards, so a line feed in it breaks its line. -/
theorem length_entries_lt_of_newline {v : Float} (hw : s.history.Works)
    (hrecords : s.records = true) (hcommitted : s.committed? action = some text)
    (hv : (s.act now action).1 = .ok (some v)) (hnewline : '\n' ∈ text) :
    let after := (s.act now action).2
    after.entries.length < (Text.lines (Entry.listing after.entries).toList).length := by
  intro after
  obtain ⟨text', hcommitted', hentries⟩ := entries_act_of_value hw hrecords hv
  obtain rfl : text = text' := Option.some.inj (hcommitted.symm.trans hcommitted')
  have hmem : Entry.reloaded ⟨text, v, now⟩ ∈ after.entries := by
    obtain ⟨n, hn⟩ : ∃ n, s.history.capacity = n + 1 :=
      Nat.exists_eq_add_one.2 s.history.capacity_pos
    rw [hentries, hn, List.rtake_concat_succ]
    simp
  have hcount : 0 < (after.entries.map fun e => e.expression.count '\n').sum :=
    (List.count_pos_iff.2 hnewline).trans_le
      (List.le_sum_of_mem (List.mem_map_of_mem hmem))
  rw [Entry.length_lines_listing (List.ne_nil_of_mem hmem)]
  omega

/-! ### The listing after a run -/

/-- The lines of a listing after any run of a session whose history was empty. There is a line more
for each line feed in a listed expression. So each entry has a line of its own, newest first, which
begins with the number of the line, exactly if there are none. There are none unless a text with a
line feed inside is committed from elsewhere; where such a text is recorded, the lines outnumber the
entries at once. An empty history is listed as a notice. -/
theorem lines_listing_run {history : History} (hw : history.Works) (hempty : history.entries = [])
    (records : Bool) (steps : List (Int64 × Action)) :
    let s := (new history records).run steps
    let shown := Text.lines (Entry.listing s.entries).toList
    (s.entries = [] → shown = ["No history yet".toList]) ∧
      (s.entries ≠ [] → shown.length =
          s.entries.length + (s.entries.map fun e => e.expression.count '\n').sum ∧
        (shown = Entry.rows s.entries ↔ ∀ e ∈ s.entries, '\n' ∉ e.expression)) ∧
      ((Entry.rows s.entries).length = s.entries.length ∧ ∀ i e, s.entries.reverse[i]? = some e →
        (Entry.rows s.entries)[i]? = some (Entry.row (i + 1) e) ∧
          Decimal.digits (i + 1) ++ ['.', ' '] <+: (Entry.row (i + 1) e).dropWhile (· == ' ')) ∧
      ((∀ step ∈ steps, step.2.CommitsWith ('\n' ∉ ·)) → ∀ e ∈ s.entries, '\n' ∉ e.expression) ∧
      ∀ now action text v, records = true → s.committed? action = some text →
        (s.act now action).1 = .ok (some v) → '\n' ∈ text →
        let after := (s.act now action).2
        after.entries.length < (Text.lines (Entry.listing after.entries).toList).length := by
  intro s shown
  have hworks : s.history.Works := by
    obtain ⟨st, hst, hrun, -⟩ := history_run (s := new history records) hw steps
    rw [hrun]
    exact ⟨hw.1, hst⟩
  refine ⟨fun hnil => ?_,
    fun hne => ⟨Entry.length_lines_listing hne, Entry.lines_listing_eq_iff hne⟩,
    ⟨Entry.length_rows _, fun i e he => ⟨?_, Entry.prefix_row _ _⟩⟩, fun hsteps => ?_,
    fun now action text v hrecords hcommitted hv hnewline => ?_⟩
  · rw [show shown = _ from congrArg (fun es => Text.lines (Entry.listing es).toList) hnil]
    exact Entry.lines_listing_nil
  · rw [Entry.getElem?_rows, he]
    rfl
  · have hnew : (new history records).entries = [] := hempty
    have hstart : (new history records).OnOneLine :=
      ⟨hw, List.not_mem_nil, hnew ▸ List.forall_mem_nil _⟩
    exact (hstart.run hsteps).entries
  · exact length_entries_lt_of_newline hworks ((records_run _ steps).trans hrecords) hcommitted hv
      hnewline

/-- Line feeds around a text that is committed are no part of it. -/
theorem lines_listing_run_of_trimmed :
    let history := History.new (.memory []) History.defaultKey 20
    let steps := [(1, Action.commitText "\n1 + 1\n".toList), (2, .input '×'), (3, .input '5'),
      (4, .commit)]
    let s := (new history true).run steps
    history.Works ∧ history.entries = [] ∧ (∀ step ∈ steps, step.2.CommitsWith ('\n' ∉ ·)) ∧
      Text.lines (Entry.listing s.entries).toList =
        ["  1. 2*5 = 10".toList, "  2. 1 + 1 = 2".toList] := by
  intro history steps s
  have hw : history.Works := ⟨by decide, .memory []⟩
  have hempty : history.entries = [] := rfl
  have hsteps : ∀ step ∈ steps, step.2.CommitsWith ('\n' ∉ ·) := by decide +kernel
  have hentries : s.entries = [⟨"1 + 1".toList, 2.0, 1⟩, ⟨"2*5".toList, 10.0, 4⟩] := by
    decide +kernel
  obtain ⟨-, hlines, -, hnone, -⟩ := lines_listing_run hw hempty true steps
  obtain ⟨-, hiff⟩ := hlines (by rw [hentries]; exact List.cons_ne_nil _ _)
  refine ⟨hw, hempty, hsteps, (hiff.2 (hnone hsteps)).trans ?_⟩
  rw [hentries]
  decide +kernel

/-- The sum of a one and a one in the next line is one entry on two lines. -/
theorem not_forall_lines_listing_run :
    ¬∀ (history : History) (records : Bool) (steps : List (Int64 × Action)), history.Works →
      history.entries = [] →
        let es := ((new history records).run steps).entries
        es ≠ [] → (Text.lines (Entry.listing es).toList).length = es.length := by
  intro h
  have hlines := h (.new (.memory []) History.defaultKey 20) true
    [(1, .commitText ['1', '\n', '+', '1'])] ⟨by decide, .memory []⟩ rfl
  exact absurd hlines (by decide +kernel)

end Session

end KeypadCalc
