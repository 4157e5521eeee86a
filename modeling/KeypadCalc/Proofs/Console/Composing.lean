import KeypadCalc.Proofs.Console.Commands
import KeypadCalc.Proofs.Console.Lines

/-! Inputs one after another. A run over two inputs is a run over the first one, which the second
one takes up where it was left, as long as nothing in the first one ends it: only a line that quits
and a line that is no text do, and then what follows them is not looked at. -/

namespace KeypadCalc.Console

variable {s : Session} {now : Int64} {a line rest : Bytes} {t q : Text} {ls : List Bytes}

/-! ### Lines one after another -/

theorem goesOn_execute (now : Int64) (s : Session) (c : Command) :
    (execute now s c).goesOn = true ↔ c ≠ .quit := by
  cases c with
  | use n =>
    rw [execute]
    split <;> simp [Reply.onScreen]
  | keys | clear | back | percent | history | clearHistory | quit | unknown =>
    simp [execute, Reply.onScreen]

/-- An outcome with something said before its output. -/
def Outcome.prepend (o : Outcome) (said : String) : Outcome := { o with output := said ++ o.output }

/-- What comes of a run if more is done after it, which is so unless something has ended it. -/
def Outcome.andThen (first : Outcome) (more : Session → Outcome) : Outcome :=
  match first.ending with
  | .exhausted => (more first.session).prepend first.output
  | _ => first

theorem Outcome.andThen_of_exhausted {first : Outcome} (h : first.ending = .exhausted)
    (more : Session → Outcome) :
    first.andThen more = (more first.session).prepend first.output := by
  rw [andThen, h]

theorem Outcome.andThen_of_ended {first : Outcome} (h : first.ending ≠ .exhausted)
    (more : Session → Outcome) : first.andThen more = first := by
  unfold andThen
  split
  · exact absurd ‹_› h
  · rfl

theorem Outcome.andThen_prepend (first : Outcome) (said : String) (more : Session → Outcome) :
    (first.prepend said).andThen more = (first.andThen more).prepend said := by
  obtain ⟨s, output, ending⟩ := first
  cases ending with
  | exhausted => simp only [prepend, andThen, String.append_assoc]
  | quit | invalidText => rfl

theorem runLines_cons (hline : Utf8.decode? line = some t)
    (hgoes : (execute now s (Command.ofLine t)).goesOn = true) (ls : List Bytes) :
    runLines now s (line :: ls) =
      (runLines now (execute now s (Command.ofLine t)).session ls).prepend
        (execute now s (Command.ofLine t)).output := by
  rw [runLines, hline]
  exact if_pos hgoes

theorem runLines_append (now : Int64) (s : Session) (ls ls' : List Bytes) :
    runLines now s (ls ++ ls') = (runLines now s ls).andThen fun s => runLines now s ls' := by
  induction ls generalizing s with
  | nil =>
    simp only [List.nil_append, runLines, Outcome.andThen, Outcome.prepend, String.empty_append]
  | cons line ls ih =>
    rw [List.cons_append]
    cases hline : Utf8.decode? line with
    | none =>
      rw [runLines, runLines, hline]
      rfl
    | some t =>
      cases hgoes : (execute now s (Command.ofLine t)).goesOn with
      | false =>
        rw [runLines, runLines, hline]
        simp [hgoes, Outcome.andThen]
      | true =>
        rw [runLines_cons hline hgoes, runLines_cons hline hgoes, ih, Outcome.andThen_prepend]

theorem ending_runLines (h : ∀ line ∈ ls, ∃ t, Utf8.decode? line = some t ∧
    Command.ofLine t ≠ .quit) (s : Session) (now : Int64) :
    (runLines now s ls).ending = .exhausted := by
  induction ls generalizing s with
  | nil => rfl
  | cons line ls ih =>
    obtain ⟨⟨t, ht, hquit⟩, hrest⟩ := List.forall_mem_cons.1 h
    rw [runLines_cons ht ((goesOn_execute now s _).2 hquit)]
    exact ih hrest _

/-! ### Inputs one after another -/

theorem run_eq_prepend (now : Int64) (s : Session) (input : Bytes) :
    run now s input = (runLines now s (lines input)).prepend (screen s) := rfl

theorem run_append_eq_andThen (ha : a = [] ∨ a.getLast? = some lineFeed) (rest : Bytes) :
    run now s (a ++ rest) = (run now s a).andThen fun s => runLines now s (lines rest) := by
  rw [run_eq_prepend, lines_append ha, runLines_append, ← Outcome.andThen_prepend,
    ← run_eq_prepend]

theorem ending_run (htext : Utf8.decode? a = some t)
    (hlines : ∀ line ∈ t.splitOn '\n', Command.ofLine line ≠ .quit) (now : Int64) (s : Session) :
    (run now s a).ending = .exhausted := by
  refine ending_runLines (fun line hline => ?_) s now
  rw [Utf8.decode?_eq_some_iff.1 htext] at hline
  obtain ⟨u, hu, v, rfl, htrim⟩ := exists_of_mem_lines hline
  exact ⟨v, Utf8.decode?_encode v, Command.ofLine_congr htrim ▸ hlines u hu⟩

/-- The first line of an input is what stands before a line feed or the end, with or without the
carriage return there. -/
theorem exists_lines_append (hne : line ≠ []) (hline : lineFeed ∉ line)
    (hrest : ∀ b ∈ rest.head?, b = lineFeed) :
    ∃ front ls, lines (line ++ rest) = front :: ls ∧
      (front = line ∨ front = withoutReturn line) := by
  cases rest with
  | nil => exact ⟨line, [], by rw [List.append_nil, lines_of_notMem hne hline], .inl rfl⟩
  | cons b rest =>
    rw [hrest b rfl]
    exact ⟨_, _, lines_cut hline rest, .inr rfl⟩

theorem runLines_cons_of_quit (hq : Command.ofLine q = .quit) (s : Session) (now : Int64)
    (ls : List Bytes) : runLines now s (Utf8.encode q :: ls) = ⟨s, "", .quit⟩ := by
  rw [runLines, Utf8.decode?_encode]
  simp [hq, execute]

theorem runLines_cons_of_invalid (h : Utf8.decode? line = none) (s : Session) (now : Int64)
    (ls : List Bytes) : runLines now s (line :: ls) = ⟨s, "", .invalidText⟩ := by
  rw [runLines, h]

theorem runLines_of_quit (hfeed : '\n' ∉ q) (hq : Command.ofLine q = .quit)
    (hrest : ∀ b ∈ rest.head?, b = lineFeed) (s : Session) (now : Int64) :
    runLines now s (lines (Utf8.encode q ++ rest)) = ⟨s, "", .quit⟩ := by
  have hne : Utf8.encode q ≠ [] := fun hnil => by
    rw [Utf8.encode_eq_nil_iff.1 hnil] at hq
    cases hq
  obtain ⟨front, ls, hls, hfront⟩ :=
    exists_lines_append hne (lineFeed_mem_encode_iff.not.2 hfeed) hrest
  rw [hls]
  rcases hfront with rfl | rfl
  · exact runLines_cons_of_quit hq s now ls
  · rw [withoutReturn_encode]
    exact runLines_cons_of_quit ((Command.ofLine_congr (trim_unreturned q)).trans hq) s now ls

theorem runLines_of_invalid (hfeed : lineFeed ∉ line) (hline : Utf8.decode? line = none)
    (hrest : ∀ b ∈ rest.head?, b = lineFeed) (s : Session) (now : Int64) :
    runLines now s (lines (line ++ rest)) = ⟨s, "", .invalidText⟩ := by
  have hne : line ≠ [] := fun hnil => by
    rw [hnil] at hline
    exact nomatch hline.symm.trans (Utf8.decode?_encode [])
  obtain ⟨front, ls, hls, hfront⟩ := exists_lines_append hne hfeed hrest
  have hinvalid : Utf8.decode? front = none := by
    rcases hfront with rfl | rfl
    · exact hline
    · exact decode?_withoutReturn hline
  rw [hls, runLines_cons_of_invalid hinvalid]

/-- An input of whole lines is read to its end if it is a text and no line of it quits. Then a run
over a longer input is the run over this one and then one over the rest, which takes up the session
and does not show it again at first. If the rest begins with a line that quits, or with one that is
no text, that is all there is to it, whatever follows that line. An input that is not read to its
end can be followed by anything. -/
theorem run_append (now : Int64) (s : Session) (ha : a = [] ∨ a.getLast? = some lineFeed) :
    let first := run now s a
    (∀ t, Utf8.decode? a = some t → (∀ line ∈ t.splitOn '\n', Command.ofLine line ≠ .quit) →
      first.ending = .exhausted) ∧
    (first.ending = .exhausted →
      (∀ b, let second := run now first.session b
        ∃ said, second.output = screen first.session ++ said ∧
          run now s (a ++ b) = ⟨second.session, first.output ++ said, second.ending⟩) ∧
      (∀ (q : Text) (rest : Bytes), '\n' ∉ q → Command.ofLine q = .quit →
        (∀ b ∈ rest.head?, b = lineFeed) →
        run now s (a ++ (Utf8.encode q ++ rest)) = ⟨first.session, first.output, .quit⟩) ∧
      ∀ line rest : Bytes, lineFeed ∉ line → Utf8.decode? line = none →
        (∀ b ∈ rest.head?, b = lineFeed) →
        run now s (a ++ (line ++ rest)) = ⟨first.session, first.output, .invalidText⟩) ∧
    (first.ending ≠ .exhausted → ∀ b, run now s (a ++ b) = first) := by
  intro first
  refine ⟨fun t htext hlines => ending_run htext hlines now s, fun hends => ?_,
    fun hends b => ?_⟩
  · have happend : ∀ rest, run now s (a ++ rest) =
        (runLines now first.session (lines rest)).prepend first.output := by
      intro rest
      rw [run_append_eq_andThen ha]
      exact Outcome.andThen_of_exhausted hends _
    refine ⟨fun b => ⟨_, rfl, happend b⟩, fun q rest hfeed hq hrest => ?_,
      fun line rest hfeed hline hrest => ?_⟩
    · rw [happend, runLines_of_quit hfeed hq hrest, Outcome.prepend, String.append_empty]
    · rw [happend, runLines_of_invalid hfeed hline hrest, Outcome.prepend, String.append_empty]
  · rw [run_append_eq_andThen ha]
    exact Outcome.andThen_of_ended hends _

/-- A sum that is begun, and a listing: the sum is finished, or broken off by quitting before a byte
that is no text, or by that byte. -/
theorem run_append_of_open_sum :
    let s := Session.new (.new (.memory []) History.defaultKey 5) true
    let t := "1+\n:history\r\n".toList
    let a := Utf8.encode t
    let first := run 1 s a
    (∃ said, (run 1 first.session [50, 61]).output = screen first.session ++ said ∧
      (run 1 s (a ++ [50, 61])).output = first.output ++ said) ∧
    (run 1 s (a ++ [50, 61])).session.keypad = ⟨['3'], some 3.0, false⟩ ∧
    run 1 s (a ++ (Utf8.encode " :q\r".toList ++ [10, 255])) =
      ⟨first.session, first.output, .quit⟩ ∧
    run 1 s (a ++ ([49, 255] ++ [])) = ⟨first.session, first.output, .invalidText⟩ := by
  intro s t a first
  have hlines : ∀ line ∈ t.splitOn '\n', Command.ofLine line ≠ .quit := by decide +kernel
  obtain ⟨hends, happend, -⟩ := run_append (a := a) 1 s (.inr (by decide))
  obtain ⟨hcompose, hquit, hinvalid⟩ := happend (hends t (Utf8.decode?_encode t) hlines)
  obtain ⟨said, hsaid, hrun⟩ := hcompose [50, 61]
  refine ⟨⟨said, hsaid, congrArg Outcome.output hrun⟩, by decide +kernel, ?_, ?_⟩
  · refine hquit " :q\r".toList [10, 255] (by decide) (by decide +kernel) ?_
    rintro b ⟨⟩
    rfl
  · exact hinvalid [49, 255] [] (by decide) (by decide +kernel) nofun

end KeypadCalc.Console
