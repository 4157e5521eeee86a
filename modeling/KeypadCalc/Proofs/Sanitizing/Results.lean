import KeypadCalc.Proofs.Blank
import KeypadCalc.Proofs.Sanitizing.Locality

/-! What comes out of the sanitizer. Its results are the texts of allowed characters in which no
percent sign follows a digit, and those it leaves as they are: one pass is enough. Nothing but
blanks comes out exactly where nothing but blanks and group separators goes in. -/

namespace KeypadCalc.Sanitizer

variable {c : Char} {raw s t : Text}

/-! ### Sanitizing again -/

/-- Writing percentages brings in no characters but those of a division by a hundred. -/
theorem mem_expandPercents (h : c ∈ expandPercents t) :
    c ∈ t ∨ c ∈ ['(', '/', '1', '0', ')'] := by
  fun_induction expandPercents t with
  | case1 => exact absurd h List.not_mem_nil
  | case2 d t literal after hfound _ ih =>
    rw [(percentLiteral?_eq_some_iff.1 hfound).2]
    simp only [List.cons_append, List.append_assoc, List.mem_cons, List.mem_append,
      List.not_mem_nil, or_false, false_or] at h ih ⊢
    tauto
  | case3 d t _ ih =>
    rcases List.mem_cons.1 h with rfl | h
    · exact .inl List.mem_cons_self
    · exact (ih h).imp_left (List.mem_cons_of_mem d)

theorem isAllowed_canonical (h : foreign? t = none) : ∀ c ∈ canonical t, isAllowed c = true := by
  rw [foreign?, List.find?_eq_none] at h
  simpa using h

/-- What comes out has allowed characters only, and no percent sign after a digit. -/
theorem result_spec (h : sanitize raw = .ok s) :
    (∀ c ∈ s, isAllowed c = true) ∧ NoPercentages s := by
  obtain ⟨hforeign, rfl⟩ := sanitize_eq_ok_iff.1 h
  refine ⟨fun c hc => ?_, noPercentages_expandPercents _⟩
  rcases mem_expandPercents hc with hc | hc
  · exact isAllowed_canonical hforeign c hc
  · exact List.all_eq_true.1 (by decide) c hc

/-- A text is left as it is if its characters are allowed and no percent sign in it follows a digit,
and no other text is. -/
theorem sanitize_eq_self_iff :
    sanitize t = .ok t ↔ (∀ c ∈ t, isAllowed c = true) ∧ NoPercentages t := by
  refine ⟨result_spec, fun ⟨hallowed, hnone⟩ => ?_⟩
  rw [sanitize_eq_ok hallowed, hnone.expandPercents_eq]

/-- Sanitizing what has been sanitized changes nothing. -/
theorem sanitize_idempotent (raw s : Text) (h : sanitize raw = .ok s) : sanitize s = .ok s :=
  sanitize_eq_self_iff.2 (result_spec h)

/-- Percentages beside points, parentheses and other percent signs: what stays of the signs is not
taken for a percentage the second time. -/
theorem sanitize_idempotent_of_percentages :
    let raw := "1.2.3%%+.5%−1,0%%7(8%)9%".toList
    let s := "1.(2.3/100)%+.(5/100)-(10/100)%7((8/100))(9/100)".toList
    sanitize raw = .ok s ∧ sanitize s = .ok s := by
  have h : sanitize "1.2.3%%+.5%−1,0%%7(8%)9%".toList =
      .ok "1.(2.3/100)%+.(5/100)-(10/100)%7((8/100))(9/100)".toList := by
    decide +kernel
  exact ⟨h, sanitize_idempotent _ _ h⟩

/-! ### Results without content -/

/-- Nothing is left of a text when it is sanitized, but for blanks. -/
def Contentless (t : Text) : Prop := ∃ s, sanitize t = .ok s ∧ Text.trim s = []

theorem isBlank_of_expandPercents (h : ∀ c ∈ expandPercents t, Text.isBlank c = true) :
    ∀ c ∈ t, Text.isBlank c = true := by
  fun_induction expandPercents t with
  | case1 => exact h
  | case2 => exact absurd (h '(' (by simp)) (by decide)
  | case3 d t _ ih =>
    obtain ⟨hd, ht⟩ := List.forall_mem_cons.1 h
    exact List.forall_mem_cons.2 ⟨hd, ih ht⟩

theorem expandPercents_of_isBlank (h : ∀ c ∈ t, Text.isBlank c = true) : expandPercents t = t :=
  (noPercentages_of_notMem fun hmem => absurd (h _ hmem) (by decide)).expandPercents_eq

theorem operatorOf_of_isBlank (h : Text.isBlank c = true) : operatorOf c = c :=
  operatorOf_of_isAllowed (isAllowed_iff.2 (.inr (.inr h)))

/-- A character is dropped or becomes a blank only if it is a separator or a blank itself. -/
theorem isBlank_canonical_iff :
    (∀ c ∈ canonical t, Text.isBlank c = true) ↔ ∀ c ∈ t, c = ',' ∨ Text.isBlank c = true := by
  have hblank : ∀ c, Text.isBlank (operatorOf c) = true ↔ Text.isBlank c = true := by
    intro c
    refine ⟨fun h => ?_, fun h => by rwa [operatorOf_of_isBlank h]⟩
    unfold operatorOf at h
    split at h
    · exact absurd h (by decide)
    · exact absurd h (by decide)
    · exact absurd h (by decide)
    · exact h
  simp only [canonical, List.forall_mem_map, hblank, List.mem_filter, decide_eq_true_eq, and_imp]
  exact forall₂_congr fun c _ => or_iff_not_imp_left.symm

/-- Nothing is left of the texts of separators and blanks, and of no others. -/
theorem contentless_iff : Contentless t ↔ ∀ c ∈ t, c = ',' ∨ Text.isBlank c = true := by
  rw [← isBlank_canonical_iff]
  constructor
  · rintro ⟨s, hs, hblank⟩
    obtain ⟨-, rfl⟩ := sanitize_eq_ok_iff.1 hs
    exact isBlank_of_expandPercents (Text.trim_eq_nil_iff.1 hblank)
  · intro h
    refine ⟨canonical t, sanitize_eq_ok_iff.2 ⟨?_, expandPercents_of_isBlank h⟩,
      Text.trim_eq_nil_iff.2 h⟩
    rw [foreign?, List.find?_eq_none]
    intro c hc
    simp [isAllowed_iff.2 (.inr (.inr (h c hc)))]

end KeypadCalc.Sanitizer
