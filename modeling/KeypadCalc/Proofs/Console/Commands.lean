import KeypadCalc.Console.Command
import KeypadCalc.Proofs.Blank

/-! Which lines are commands. A line that begins with a colon, blanks apart, is the command that its
words name, and a line of other words is unknown; what is documented is kept to for all lines but
those that have more words after `use` and a number, which are not refused. -/

namespace KeypadCalc.Console

variable {c : Command} {n : ℕ} {action line t u w word : Text} {ws surplus : List Text}

/-! ### Numbers -/

/-- A word reads as a number of 64 bits: it is digits, perhaps with a plus before them. -/
def Reads (word : Text) (n : ℕ) : Prop :=
  ∃ digits : Text, (word = digits ∨ word = '+' :: digits) ∧ digits ≠ [] ∧
    (∀ c ∈ digits, c.isDigit = true) ∧ n = Nat.ofDigitChars 10 digits 0 ∧ n < UInt64.size

theorem count?_eq_some_iff : count? word = some n ↔ Reads word n := by
  have hmax : ∀ m, m ≤ maxCount ↔ m < UInt64.size := fun m => by
    rw [maxCount, UInt64.size]
    omega
  simp only [count?, Reads, Bool.and_eq_true, Bool.not_eq_true', List.isEmpty_eq_false_iff,
    List.all_eq_true, decide_eq_true_eq, hmax, ite_eq_iff, Option.some.injEq, reduceCtorEq,
    and_false, or_false]
  constructor
  · rintro ⟨⟨⟨hne, hdigits⟩, hlt⟩, rfl⟩
    refine ⟨_, ?_, hne, hdigits, rfl, hlt⟩
    split
    · rename_i hplus
      obtain ⟨rest, rfl⟩ := List.head?_eq_some_iff.1 hplus
      exact .inr rfl
    · exact .inl rfl
  · rintro ⟨digits, hword, hne, hdigits, rfl, hlt⟩
    have hdrop : (if word.head? = some '+' then word.tail else word) = digits := by
      rcases hword with rfl | rfl
      · refine if_neg fun hplus => ?_
        exact absurd (hdigits '+' (List.mem_of_head? hplus)) (by decide)
      · rfl
    rw [hdrop]
    exact ⟨⟨⟨hne, hdigits⟩, hlt⟩, rfl⟩

/-! ### Words -/

/-- The names of a command that is given by its name alone. -/
def Command.names : Command → List Text
  | .clear => ["c".toList, "clear".toList]
  | .back => ["back".toList]
  | .percent => ["%".toList, "percent".toList]
  | .history => ["history".toList]
  | .clearHistory => ["clear-history".toList]
  | .quit => ["q".toList, "quit".toList]
  | .keys _ | .use _ | .unknown _ => []

/-- The words that are documented for a command. -/
inductive Command.Documented : List Text → Command → Prop
  | name {c : Command} {word : Text} : word ∈ c.names → Documented [word] c
  | use {word : Text} {n : ℕ} : Reads word n → 0 < n → Documented ["use".toList, word] (.use n)

/-- What is documented for a line of words: the command that they are documented for, or if there is
none, that the line is unknown. -/
def Command.Asks (line : Text) (ws : List Text) (c : Command) : Prop :=
  Documented ws c ∨ (∀ d, ¬Documented ws d) ∧ c = .unknown line

/-- A word and a positive number with other words after them. -/
def HasSurplus (ws : List Text) : Prop :=
  ∃ word n surplus, Reads word n ∧ 0 < n ∧ surplus ≠ [] ∧ ws = "use".toList :: word :: surplus

theorem Command.ofWords?_of_mem_names : ∀ w ∈ c.names, ofWords? [w] = some c := by
  cases c with
  | keys | use | unknown => exact nofun
  | clear | back | percent | history | clearHistory | quit => decide

theorem Command.mem_names_of_ofWords? (h : ofWords? [w] = some c) : w ∈ c.names := by
  have hword : ∀ {s}, String.ofList w = s → w = s.toList := fun hs => by
    rw [← hs, String.toList_ofList]
  rw [ofWords?] at h
  split at h
  case h_10 => cases h
  all_goals
    rename_i hname
    cases h
    rw [hword hname]
    decide

theorem Command.ofWords?_cons_cons_iff : ofWords? (w :: word :: surplus) = some c ↔
    w = "use".toList ∧ ∃ n, Reads word n ∧ 0 < n ∧ c = .use n := by
  rw [ofWords?]
  split
  · rename_i huse
    simp only [huse, true_and, ← count?_eq_some_iff]
    cases count? word with
    | none => simp
    | some n =>
      simp only [Option.some.injEq, exists_eq_left']
      split
      · rename_i hpos
        simp only [hpos, true_and, Option.some.injEq, eq_comm]
      · rename_i hzero
        simp only [hzero, false_and, reduceCtorEq]
  · rename_i huse
    simp only [huse, false_and, reduceCtorEq]

/-- Words that name a command do so as documented, or with a surplus. -/
theorem Command.ofWords?_eq_some_iff : ofWords? ws = some c ↔
    Documented ws c ∨ ∃ word n surplus, Reads word n ∧ 0 < n ∧ surplus ≠ [] ∧
      ws = "use".toList :: word :: surplus ∧ c = .use n := by
  match ws with
  | [] =>
    refine iff_of_false nofun ?_
    rintro (h | ⟨_, _, _, -, -, -, h, -⟩) <;> cases h
  | [w] =>
    refine ⟨fun h => .inl (.name (mem_names_of_ofWords? h)), ?_⟩
    rintro (h | ⟨_, _, _, -, -, -, h, -⟩)
    · cases h with
      | name hw => exact ofWords?_of_mem_names w hw
    · cases h
  | w :: word :: surplus =>
    rw [ofWords?_cons_cons_iff]
    constructor
    · rintro ⟨rfl, n, hreads, hpos, rfl⟩
      rcases eq_or_ne surplus [] with rfl | hne
      · exact .inl (.use hreads hpos)
      · exact .inr ⟨word, n, surplus, hreads, hpos, hne, rfl, rfl⟩
    · rintro (h | ⟨_, n, _, hreads, hpos, -, h, rfl⟩)
      · cases h with
        | use hreads hpos => exact ⟨rfl, _, hreads, hpos, rfl⟩
      · cases h
        exact ⟨rfl, n, hreads, hpos, rfl⟩

/-! ### Lines -/

theorem Command.ofLine_congr (h : Text.trim t = Text.trim u) : ofLine t = ofLine u := by
  rw [ofLine, ofLine, h]

theorem Command.ofLine_of_colon (h : Text.trim line = ':' :: action) :
    ofLine line = (ofWords? (Text.pieces action)).getD (.unknown (Text.trim line)) := by
  rw [← Text.words_eq_pieces, ofLine, h]
  rfl

theorem Command.ofLine_of_not_colon (h : (Text.trim line).head? ≠ some ':') :
    ofLine line = .keys (Text.trim line) := by
  rw [ofLine]
  split
  · rename_i hcolon
    rw [hcolon] at h
    exact absurd rfl h
  · rfl

/-- A line that does not begin with a colon is keys to press. -/
theorem Command.ofLine_of_keys (h : t.find? (fun c => !Text.isBlank c) ≠ some ':') :
    ofLine t = .keys (Text.trim t) :=
  ofLine_of_not_colon (by rwa [Text.head?_trim])

theorem Command.not_documented_keys : ¬Documented ws (.keys t) := by
  rintro ⟨hname⟩
  cases hname

theorem Command.ofLine_ne_keys (h : Text.trim line = ':' :: action) :
    ofLine line ≠ .keys t := by
  rw [ofLine_of_colon h]
  cases hwords : ofWords? (Text.pieces action) with
  | none => exact nofun
  | some c =>
    rintro rfl
    rcases ofWords?_eq_some_iff.1 hwords with hdoc | ⟨_, _, _, -, -, -, -, heq⟩
    · exact not_documented_keys hdoc
    · cases heq

/-- Without a surplus, a line is what is documented for its words. -/
theorem Command.ofLine_eq_iff_asks (h : Text.trim line = ':' :: action)
    (hsurplus : ¬HasSurplus (Text.pieces action)) :
    ofLine line = c ↔ Asks (Text.trim line) (Text.pieces action) c := by
  have hwords : ∀ d,
      ofWords? (Text.pieces action) = some d ↔ Documented (Text.pieces action) d := by
    intro d
    rw [ofWords?_eq_some_iff, or_iff_left]
    rintro ⟨word, n, surplus, hreads, hpos, hne, heq, -⟩
    exact hsurplus ⟨word, n, surplus, hreads, hpos, hne, heq⟩
  simp only [Asks, ← hwords, ofLine_of_colon h]
  cases ofWords? (Text.pieces action) with
  | none => simp [eq_comm]
  | some d => simp

theorem Command.ofLine_of_surplus (h : Text.trim line = ':' :: action)
    (hreads : Reads word n) (hpos : 0 < n)
    (hwords : Text.pieces action = "use".toList :: word :: surplus) : ofLine line = .use n := by
  have huse : ofWords? (Text.pieces action) = some (.use n) := by
    rw [hwords, ofWords?_cons_cons_iff]
    exact ⟨rfl, n, hreads, hpos, rfl⟩
  rw [ofLine_of_colon h, huse, Option.getD_some]

/-- With a surplus, a line is a command that is not documented for its words. -/
theorem Command.exists_not_asks_of_surplus (h : Text.trim line = ':' :: action)
    (hsurplus : HasSurplus (Text.pieces action)) :
    ∃ n, ofLine line = .use n ∧ ¬Asks (Text.trim line) (Text.pieces action) (.use n) := by
  obtain ⟨word, n, surplus, hreads, hpos, hne, hwords⟩ := hsurplus
  refine ⟨n, ofLine_of_surplus h hreads hpos hwords, ?_⟩
  rw [hwords]
  rintro (hdoc | ⟨-, heq⟩)
  · cases hdoc
    exact hne rfl
  · cases heq

/-- A line is keys to press, as it is without the blanks around it, exactly if it does not begin
with a colon then. Any other line is what is documented for its words, the command or unknown,
whatever blanks stand between them, if and only if there are no more words after `use` and a
positive number; these are not refused but passed over. -/
theorem Command.ofLine_asks_iff (line : Text) :
    (∀ t, ofLine line = .keys t ↔ (Text.trim line).head? ≠ some ':' ∧ t = Text.trim line) ∧
      ∀ action, Text.trim line = ':' :: action →
        let ws := Text.pieces action
        ((∀ c, ofLine line = c ↔ Asks (Text.trim line) ws c) ↔ ¬HasSurplus ws) ∧
          ∀ word n surplus, Reads word n → 0 < n → ws = "use".toList :: word :: surplus →
            ofLine line = .use n := by
  refine ⟨fun t => ?_, fun action h => ⟨⟨fun hasks hsurplus => ?_, fun hsurplus c =>
    ofLine_eq_iff_asks h hsurplus⟩, fun word n surplus => ofLine_of_surplus h⟩⟩
  · by_cases hcolon : (Text.trim line).head? = some ':'
    · obtain ⟨action, haction⟩ := List.head?_eq_some_iff.1 hcolon
      exact iff_of_false (ofLine_ne_keys haction) fun h => h.1 hcolon
    · rw [ofLine_of_not_colon hcolon, Command.keys.injEq]
      exact ⟨fun ht => ⟨hcolon, ht.symm⟩, fun ht => ht.2.symm⟩
  · obtain ⟨n, hline, hnot⟩ := exists_not_asks_of_surplus h hsurplus
    exact hnot ((hasks _).1 hline)

/-- Any blanks may stand around the words, and a plus and zeros before a number. -/
example : Command.ofLine "\u2003:\u00a0use\t+007\u3000".toList = .use 7 := by decide +kernel

/-- A word after the number is passed over. -/
theorem Command.not_forall_ofLine_asks :
    ¬∀ line action, Text.trim line = ':' :: action →
      ∀ c, ofLine line = c ↔ Asks (Text.trim line) (Text.pieces action) c := by
  intro h
  have hline : Text.trim ":use 1 surplus".toList = ':' :: "use 1 surplus".toList := by decide
  have hone : Reads ['1'] 1 :=
    ⟨['1'], .inl rfl, by decide, List.forall_mem_singleton.2 (by decide), by decide, by decide⟩
  have hsurplus : HasSurplus (Text.pieces "use 1 surplus".toList) :=
    ⟨['1'], 1, ["surplus".toList], hone, by decide, by decide, by decide +kernel⟩
  obtain ⟨n, huse, hnot⟩ := exists_not_asks_of_surplus hline hsurplus
  exact hnot ((h _ _ hline _).1 huse)

end KeypadCalc.Console
