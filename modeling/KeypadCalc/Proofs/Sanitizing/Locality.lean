import KeypadCalc.Proofs.Sanitizing

/-! The sanitizer described by what stands around each percent sign. A percentage may be written
out wherever it stands, before those to its left or after them: the texts on its two sides are
written out by themselves. Main statement: which texts are refused and at which character, and
what the others become. -/

namespace KeypadCalc.Sanitizer

/-- The characters that a raw text may hold: the group separator, display glyphs, digits, operators,
parentheses, points and blanks. -/
def Admitted (c : Char) : Prop :=
  c ∈ [',', '×', '÷', '−'] ∨ c.isDigit = true ∨ c ∈ ['+', '-', '*', '/', '%', '(', ')', '.'] ∨
    Text.isBlank c = true

instance : DecidablePred Admitted := fun c =>
  inferInstanceAs (Decidable (_ ∨ c.isDigit = true ∨ _ ∨ Text.isBlank c = true))

/-- A text and what is written for it. A text without a percent sign right after a digit is kept. At
such a sign the longest literal before it is written as a division by a hundred in parentheses, and
the sign goes; what stands before the literal and what comes after the sign are written out. -/
inductive WrittenOut : Text → Text → Prop
  | kept {t : Text} : NoPercentages t → WrittenOut t t
  | percentage {a u rest s s' : Text} : IsLiteral u → IsLongestEnd a u → WrittenOut a s →
      WrittenOut rest s' →
        WrittenOut (a ++ (u ++ '%' :: rest)) (s ++ ('(' :: u ++ ['/', '1', '0', '0', ')'] ++ s'))

variable {a raw rest s t u : Text} {c : Char} {parts : List Part}

/-! ### Characters that are admitted -/

theorem isAllowed_iff : isAllowed c = true ↔
    c.isDigit = true ∨ c ∈ ['+', '-', '*', '/', '%', '(', ')', '.'] ∨ Text.isBlank c = true := by
  simp only [isAllowed, isOperator, Bool.or_eq_true, beq_iff_eq, List.mem_cons, List.not_mem_nil,
    or_false, or_assoc]

theorem admitted_iff : Admitted c ↔ c = ',' ∨ isAllowed (operatorOf c) = true := by
  constructor
  · rintro (hglyph | hallowed)
    · simp only [List.mem_cons, List.not_mem_nil, or_false] at hglyph
      rcases hglyph with rfl | rfl | rfl | rfl <;> decide
    · have hc := isAllowed_iff.2 hallowed
      exact .inr (by rwa [operatorOf_of_isAllowed hc])
  · rintro (rfl | hallowed)
    · decide
    · unfold operatorOf at hallowed
      split at hallowed
      · decide
      · decide
      · decide
      · exact .inr (isAllowed_iff.1 hallowed)

theorem operatorOf_of_not_admitted (h : ¬Admitted c) : operatorOf c = c := by
  unfold operatorOf
  split
  all_goals first
    | rfl
    | exact absurd (by decide) h

/-- An admitted character is not foreign, and any other is foreign as it stands. -/
theorem foreign?_cons (c : Char) (t : Text) :
    foreign? (c :: t) = if Admitted c then foreign? t else some c := by
  by_cases hcomma : c = ','
  · subst hcomma
    rfl
  · have hcanonical : canonical (c :: t) = operatorOf c :: canonical t := by
      simp [canonical, hcomma]
    rw [foreign?, hcanonical, List.find?_cons]
    by_cases h : Admitted c
    · rw [(admitted_iff.1 h).resolve_left hcomma, if_pos h]
      rfl
    · have hrefused : isAllowed c = false := by
        rw [← Bool.not_eq_true, ← operatorOf_of_not_admitted h]
        exact fun hallowed => h (admitted_iff.2 (.inr hallowed))
      rw [operatorOf_of_not_admitted h, hrefused, if_neg h]
      rfl

theorem foreign?_eq_find? (t : Text) : foreign? t = t.find? fun c => !decide (Admitted c) := by
  induction t with
  | nil => rfl
  | cons c t ih =>
    rw [foreign?_cons, List.find?_cons, ih]
    by_cases h : Admitted c <;> simp [h]

/-- The foreign character is the first that is not admitted. -/
theorem foreign?_eq_some_iff : foreign? t = some c ↔
    ∃ before after, t = before ++ c :: after ∧ (∀ d ∈ before, Admitted d) ∧ ¬Admitted c := by
  rw [foreign?_eq_find?, List.find?_eq_some_iff_append]
  simp only [Bool.not_eq_true', decide_eq_false_iff_not, decide_eq_true_eq, Bool.not_not]
  exact ⟨fun ⟨h, before, after, ht, hbefore⟩ => ⟨before, after, ht, hbefore, h⟩,
    fun ⟨before, after, ht, hbefore, h⟩ => ⟨h, before, after, ht, hbefore⟩⟩

theorem foreign?_eq_none_iff : foreign? t = none ↔ ∀ c ∈ t, Admitted c := by
  rw [foreign?_eq_find?, List.find?_eq_none]
  simp

/-! ### Canonical texts -/

theorem operatorOf_canonical (h : c ∈ canonical t) : c ≠ ',' ∧ operatorOf c = c := by
  obtain ⟨d, hd, rfl⟩ := List.mem_map.1 h
  have hne : d ≠ ',' := of_decide_eq_true (List.mem_filter.1 hd).2
  unfold operatorOf
  split
  · decide
  · decide
  · decide
  · rename_i h1 h2 h3
    refine ⟨hne, ?_⟩
    split
    · exact absurd rfl h1
    · exact absurd rfl h2
    · exact absurd rfl h3
    · rfl

/-- A canonical text is its own canonical form. -/
theorem canonical_canonical (t : Text) : canonical (canonical t) = canonical t := by
  have hfilter : (canonical t).filter (· ≠ ',') = canonical t :=
    List.filter_eq_self.2 fun c hc => decide_eq_true (operatorOf_canonical hc).1
  rw [canonical, hfilter, List.map_congr_left fun c hc => (operatorOf_canonical hc).2, List.map_id']

/-! ### Writing out -/

/-- A percentage is written by itself, wherever it stands. -/
theorem expandPercents_of_isLongestEnd (hu : IsLiteral u) (h : IsLongestEnd a u) :
    expandPercents (a ++ (u ++ '%' :: rest)) =
      expandPercents a ++ ((Part.literal u).written ++ expandPercents rest) := by
  rw [expandPercents_append (h.apart hu), expandPercents_percentage hu]

theorem WrittenOut.eq_expandPercents (h : WrittenOut t s) : s = expandPercents t := by
  induction h with
  | kept ht => exact ht.expandPercents_eq.symm
  | percentage hu hlongest _ _ ih ih' =>
    rw [expandPercents_of_isLongestEnd hu hlongest, ih, ih', Part.written]

theorem Divides.writtenOut (h : Divides t parts) :
    WrittenOut t (parts.map Part.written).flatten := by
  induction h with
  | @last t ht => simpa [Part.written] using WrittenOut.kept ht
  | percentage ht hu hlongest _ ih =>
    simpa [Part.written] using WrittenOut.percentage hu hlongest (.kept ht) ih

theorem writtenOut_iff : WrittenOut t s ↔ s = expandPercents t := by
  refine ⟨WrittenOut.eq_expandPercents, ?_⟩
  rintro rfl
  obtain ⟨parts, hparts⟩ := exists_divides t
  rw [hparts.expandPercents_eq]
  exact hparts.writtenOut

/-- A text is refused exactly if it has a character that is not admitted, and then at the first of
these. Any other text becomes its canonical form with the percentages written out, in whichever
order they are taken. The canonical form alone decides. -/
theorem sanitize_spec (raw : Text) :
    (∀ e, sanitize raw = .error e ↔ ∃ before c after, raw = before ++ c :: after ∧
      (∀ d ∈ before, Admitted d) ∧ ¬Admitted c ∧ e = .invalidCharacter c) ∧
      (∀ s, sanitize raw = .ok s ↔ (∀ c ∈ raw, Admitted c) ∧ WrittenOut (canonical raw) s) ∧
      sanitize raw = sanitize (canonical raw) := by
  refine ⟨fun e => ?_, fun s => ?_, ?_⟩
  · rw [sanitize_eq_error_iff]
    simp only [foreign?_eq_some_iff]
    constructor
    · rintro ⟨c, ⟨before, after, hraw, hbefore, hc⟩, he⟩
      exact ⟨before, c, after, hraw, hbefore, hc, he⟩
    · rintro ⟨before, c, after, hraw, hbefore, hc, he⟩
      exact ⟨c, ⟨before, after, hraw, hbefore, hc⟩, he⟩
  · rw [sanitize_eq_ok_iff, foreign?_eq_none_iff, writtenOut_iff, eq_comm]
  · rw [sanitize, sanitize, canonical_canonical]

/-- Two points in a run, a percent sign after another, and a point without digits before it. -/
example : sanitize "1.2.3%%+.5%−1,0%%7".toList = .ok "1.(2.3/100)%+.(5/100)-(10/100)%7".toList := by
  decide +kernel

end KeypadCalc.Sanitizer
