import KeypadCalc.Console
import KeypadCalc.Proofs.Console.Commands
import KeypadCalc.Proofs.Lexing
import KeypadCalc.Proofs.Session

/-! The numbers of the history. The console lists the entries under the numbers from one on, newest
first, and recalls an entry by the number that it is listed under. -/

namespace KeypadCalc

/-! ### Listed entries -/

namespace Entry

variable {es : List Entry} {e : Entry} {n : ℕ}

theorem map_fst_numbered (es : List Entry) :
    (numbered es).map Prod.fst = List.range' 1 es.length := by
  rw [numbered, List.map_map]
  calc
    _ = (es.reverse.zipIdx.map Prod.snd).map (· + 1) := by rw [List.map_map]; rfl
    _ = List.range' 1 es.length := by
      rw [List.zipIdx_map_snd, List.length_reverse, List.range'_succ_left]

theorem map_snd_numbered (es : List Entry) : (numbered es).map Prod.snd = es.reverse := by
  rw [numbered, List.map_map]
  exact List.zipIdx_map_fst 0 es.reverse

theorem getElem?_numbered (es : List Entry) (i : ℕ) :
    (numbered es)[i]? = es.reverse[i]?.map (Prod.mk (i + 1)) := by
  rw [numbered, List.getElem?_map, List.getElem?_zipIdx, Option.map_map, Nat.zero_add]
  rfl

/-- The entry with a number is the one that is listed under it. -/
theorem mem_numbered_iff : (n, e) ∈ numbered es ↔ withNumber? es n = some e := by
  simp only [List.mem_iff_getElem?, getElem?_numbered, Option.map_eq_some_iff, Prod.mk.injEq]
  cases n with
  | zero => simp [withNumber?]
  | succ n => simp [withNumber?]

theorem exists_withNumber? (hpos : 0 < n) (hn : n ≤ es.length) :
    ∃ e, withNumber? es n = some e := by
  have hlt : n - 1 < es.reverse.length := by
    rw [List.length_reverse]
    omega
  exact ⟨es.reverse[n - 1], by rw [withNumber?, if_neg (by omega), List.getElem?_eq_getElem hlt]⟩

theorem withNumber?_eq_none (hn : es.length < n) : withNumber? es n = none := by
  rw [withNumber?, if_neg (by omega), List.getElem?_eq_none]
  rw [List.length_reverse]
  omega

/-- The entry that was added last is listed first. -/
theorem head?_numbered_concat (es : List Entry) (e : Entry) :
    (numbered (es ++ [e])).head? = some (1, e) := by
  rw [List.head?_eq_getElem?, getElem?_numbered, List.reverse_concat]
  rfl

end Entry

/-- However many entries a history keeps, the one that was added last is listed first. -/
theorem History.head?_numbered_append {h : History} {e : Entry} (hw : h.Works)
    (he : e.result.isFinite = true) :
    (Entry.numbered (h.append e).2.entries).head? = some (1, e.reloaded) := by
  obtain ⟨st, -, happend, hentries⟩ := append_spec hw he
  obtain ⟨kept, hkept⟩ : ∃ kept, (h.entries ++ [e]).rtake h.capacity = kept ++ [e] := by
    obtain ⟨n, hn⟩ : ∃ n, h.capacity = n + 1 := Nat.exists_eq_add_one.2 h.capacity_pos
    exact ⟨h.entries.rtake n, by rw [hn, List.rtake_concat_succ]⟩
  rw [happend, hentries, hkept, List.map_append, List.map_singleton, Entry.head?_numbered_concat]

namespace Console

/-! ### Recalled entries -/

variable {n : ℕ}

/-- A number asks for its entry when it is written after `use`. -/
theorem Command.ofLine_use_digits (hpos : 0 < n) (hn : n < UInt64.size) :
    ofLine (":use ".toList ++ Decimal.digits n) = .use n := by
  have hne : Decimal.digits n ≠ [] := Json.digits_ne_nil n
  have hdigits : ∀ c ∈ Decimal.digits n, c.isDigit = true := Json.digits_isDigit n
  have hblank : ∀ c ∈ Decimal.digits n, Text.isBlank c = false := fun c hc =>
    Lexeme.isBlank_of_isDigit (by rw [hdigits c hc, Bool.true_or])
  have htrim : Text.trim (":use ".toList ++ Decimal.digits n) =
      ':' :: ("use".toList ++ ' ' :: Decimal.digits n) := by
    refine Text.trim_eq_self (fun c hc => ?_) fun c hc => hblank c ?_
    · cases hc
      decide
    · rw [List.getLast?_append_of_ne_nil _ hne] at hc
      exact List.mem_of_getLast? hc
  have hwords : Text.pieces ("use".toList ++ ' ' :: Decimal.digits n) =
      ["use".toList, Decimal.digits n] := by
    have huse : ∀ c ∈ "use".toList, Text.isBlank c = false := by
      simpa using show ("use".toList.all fun c => !Text.isBlank c) = true by decide
    have hspace : Text.isBlank ' ' = true := by decide
    have hhead : ∀ c ∈ (' ' :: Decimal.digits n).head?, Text.isBlank c = true :=
      fun c hc => Option.some.inj hc ▸ hspace
    rw [Text.pieces_append_word (by decide) huse hhead, Text.pieces_cons_blank hspace,
      Text.pieces_of_word hne hblank]
  exact ofLine_of_surplus htrim
    ⟨_, .inl rfl, hne, hdigits, Nat.ofDigitChars_ten_toDigits.symm, hn⟩ hpos hwords

/-- Recalling by a number goes by the listing. The entries are listed each once, under the numbers
from one on, newest first. The entry that is listed under a number becomes the expression as its
result is written, without an error mark, and nothing else changes; where no entry is listed under
it, nothing changes at all, and the number is named. -/
theorem execute_use_spec (s : Session) (now : Int64) {n : ℕ} (hpos : 0 < n) :
    let shown := Entry.numbered s.entries
    (Command.ofLine ":history".toList = .history ∧ execute now s .history = ⟨s,
        if s.entries = [] then "No history yet\n"
        else String.join (shown.map fun p => Entry.line p.1 p.2), true⟩) ∧
      shown.map Prod.fst = List.range' 1 s.entries.length ∧
      shown.map Prod.snd = s.entries.reverse ∧
      (∀ e : Entry, s.history.Works → e.result.isFinite = true →
        (Entry.numbered (s.history.append e).2.entries).head? = some (1, e.reloaded)) ∧
      (n < UInt64.size → Command.ofLine (":use ".toList ++ Decimal.digits n) = .use n) ∧
      (n ≤ s.entries.length → ∃ e, (∀ e', (n, e') ∈ shown ↔ e' = e) ∧
        let recalled := { s with keypad :=
          { s.keypad with expression := NumberText.plain e.result, failed := false } }
        execute now s (.use n) = ⟨recalled, screen recalled, true⟩) ∧
      (s.entries.length < n → execute now s (.use n) =
        ⟨s, "No history entry " ++ toString n ++ "\n" ++ screen s, true⟩) := by
  intro shown
  refine ⟨⟨by decide +kernel, ?_⟩, Entry.map_fst_numbered _, Entry.map_snd_numbered _,
    fun e hw he => History.head?_numbered_append hw he, Command.ofLine_use_digits hpos,
    fun hn => ?_, fun hn => ?_⟩
  · simp only [execute, Entry.listing, List.isEmpty_iff]
    rfl
  · obtain ⟨e, he⟩ := Entry.exists_withNumber? hpos hn
    refine ⟨e, fun e' => ?_, ?_⟩
    · rw [Entry.mem_numbered_iff, he, Option.some_inj, eq_comm]
    · rw [execute, he]
      simp only [Reply.onScreen, String.empty_append]
      rfl
  · rw [execute, Entry.withNumber?_eq_none hn]
    rfl

/-- Of three results the first one is no longer kept; the other two are listed and recalled by their
numbers. -/
theorem execute_use_spec_of_two :
    let s := (Session.new (.new (.memory []) History.defaultKey 2) true).run
      [(1, .commitText "1+1".toList), (2, .commitText "3×3".toList), (3, .commitText "−1/4".toList)]
    0 < 2 ∧ (execute 4 s (.use 2)).session =
        { s with keypad := ⟨['9'], some (-0.25), false⟩ } ∧
      (execute 4 s .history).output = "  1. −1/4 = -0.25\n  2. 3×3 = 9\n" ∧
      0 < 3 ∧ execute 4 s (.use 3) = ⟨s, "No history entry 3\n" ++ screen s, true⟩ := by
  intro s
  have hentries : s.entries = [⟨"3×3".toList, 9.0, 2⟩, ⟨"−1/4".toList, -0.25, 3⟩] := by
    decide +kernel
  have hlisted : Entry.numbered s.entries =
      [(1, ⟨"−1/4".toList, -0.25, 3⟩), (2, ⟨"3×3".toList, 9.0, 2⟩)] := by
    rw [hentries]
    rfl
  obtain ⟨⟨-, hhistory⟩, -, -, -, -, hfound, -⟩ := execute_use_spec s 4 (n := 2) (by decide)
  obtain ⟨-, -, -, -, -, -, hmissing⟩ := execute_use_spec s 4 (n := 3) (by decide)
  obtain ⟨e, he, hrecalled⟩ := hfound (by rw [hentries]; decide)
  obtain rfl : (⟨"3×3".toList, 9.0, 2⟩ : Entry) = e := (he _).1 (by rw [hlisted]; simp)
  refine ⟨by decide, ?_, ?_, by decide, hmissing (by rw [hentries]; decide)⟩
  · rw [hrecalled]
    have hkeypad : s.keypad.lastResult = some (-0.25) := by decide +kernel
    have hwritten : NumberText.plain 9.0 = ['9'] := by decide +kernel
    simp only [hkeypad, hwritten]
  · rw [hhistory, hlisted, if_neg (by rw [hentries]; decide)]
    decide +kernel

end Console

end KeypadCalc
