import KeypadCalc.Keypad
import KeypadCalc.Proofs.Lexing
import KeypadCalc.Proofs.Sanitizing
import Mathlib.Data.List.Chain

/-! What can be typed. Each key looks at the end of the text only; still no text has two operators
next to each other, or two points with no operator between them. -/

namespace KeypadCalc.Keypad

open Sanitizer

/-- A character that a key can put into the text. -/
def isTypable (c : Char) : Bool :=
  c.isDigit || c == '.' || isOperator c || c == '(' || c == ')'

/-- What all texts that are typed have in common. -/
structure Typed (t : Text) : Prop where
  typable : ∀ c ∈ t, isTypable c = true
  apart : t.IsChain fun c d => ¬(isOperator c = true ∧ isOperator d = true)
  points : ∀ front run rest, t = front ++ (run ++ rest) → (∀ c ∈ run, isOperator c = false) →
    run.count '.' ≤ 1

variable {t t' a b front run : Text} {c d : Char}

theorem isTypable_of_isDigit (h : c.isDigit = true) : isTypable c = true := by
  simp [isTypable, h]

theorem isTypable_of_isOperator (h : isOperator c = true) : isTypable c = true := by
  simp [isTypable, h]

theorem isAllowed_of_isTypable (h : isTypable c = true) : isAllowed c = true := by
  simp only [isTypable, Bool.or_eq_true] at h
  rcases h with (((h | h) | h) | h) | h <;> simp [isAllowed, h]

theorem isBlank_of_isTypable (h : isTypable c = true) : Text.isBlank c = false := by
  by_cases hnumeric : (c.isDigit || c == '.') = true
  · exact Lexeme.isBlank_of_isDigit hnumeric
  · simp only [isTypable, isOperator, Bool.or_eq_true, beq_iff_eq] at h hnumeric
    rw [or_assoc, or_assoc, or_iff_right hnumeric] at h
    rcases h with ((((rfl | rfl) | rfl) | rfl) | rfl) | rfl | rfl <;> decide

theorem isOperator_of_isDigit (h : c.isDigit = true) : isOperator c = false := by
  by_contra hop
  simp only [isOperator, Bool.not_eq_false, Bool.or_eq_true, beq_iff_eq] at hop
  rcases hop with (((rfl | rfl) | rfl) | rfl) | rfl <;> exact absurd h (by decide)

/-! ### Operators next to each other -/

/-- Of two characters next to each other one is no operator. -/
theorem isOperator_of_isChain
    (h : (a ++ b).IsChain fun c d => ¬(isOperator c = true ∧ isOperator d = true)) :
    ∀ c ∈ a.getLast?, ∀ d ∈ b.head?, isOperator d = true → isOperator c = false := by
  intro c hc d hd hop
  have hapart := (List.isChain_append.1 h).2.2 c hc d hd
  simpa [hop] using hapart

theorem isChain_append
    (ha : a.IsChain fun c d => ¬(isOperator c = true ∧ isOperator d = true))
    (hb : b.IsChain fun c d => ¬(isOperator c = true ∧ isOperator d = true))
    (hseam : ∀ c ∈ a.getLast?, ∀ d ∈ b.head?, isOperator d = true → isOperator c = false) :
    (a ++ b).IsChain fun c d => ¬(isOperator c = true ∧ isOperator d = true) := by
  refine ha.append hb ?_
  rintro c hc d hd ⟨hc', hd'⟩
  rw [hseam c hc d hd hd'] at hc'
  cases hc'

theorem isChain_concat (h : t.IsChain fun c d => ¬(isOperator c = true ∧ isOperator d = true))
    (hlast : isOperator c = true → ∀ d ∈ t.getLast?, isOperator d = false) :
    (t ++ [c]).IsChain fun c d => ¬(isOperator c = true ∧ isOperator d = true) := by
  refine isChain_append h (.singleton c) ?_
  rintro d hd _ ⟨⟩ hc
  exact hlast hc d hd

/-! ### Fronts and ends of typed texts -/

theorem typed_nil : Typed [] where
  typable := by simp
  apart := .nil
  points := by
    intro front run rest h _
    obtain ⟨-, h⟩ := List.append_eq_nil_iff.1 h.symm
    rw [(List.append_eq_nil_iff.1 h).1]
    exact Nat.zero_le _

theorem Typed.of_append (h : Typed (a ++ b)) : Typed a where
  typable := fun c hc => h.typable c (List.mem_append_left b hc)
  apart := (List.isChain_append.1 h.apart).1
  points := by
    intro front run rest ha
    exact h.points front run (rest ++ b) (by rw [ha]; simp)

theorem Typed.dropLast (h : Typed t) : Typed t.dropLast := by
  obtain ⟨last, heq⟩ := t.dropLast_prefix
  rw [← heq] at h
  exact h.of_append

theorem Typed.isOperator_eq_false (h : Typed (t ++ [c])) (hc : isOperator c = true) :
    ∀ d ∈ t.getLast?, isOperator d = false :=
  fun d hd => isOperator_of_isChain h.apart d hd c rfl hc

/-- What follows the last operator includes every end of the text that has no operator. -/
theorem mem_lastOperand (h : ∀ x ∈ run, isOperator x = false) (hc : c ∈ run) :
    c ∈ lastOperand (front ++ run) := by
  have hrun : ∀ x ∈ run.reverse, (!isOperator x) = true := by
    intro x hx
    rw [h x (List.mem_reverse.1 hx)]
    rfl
  rw [lastOperand, List.reverse_append, List.takeWhile_append_of_pos hrun, List.mem_reverse]
  exact List.mem_append_left _ (List.mem_reverse.2 hc)

/-- A character may be typed at the end if it makes no second operator and no second point. -/
theorem Typed.concat (h : Typed t) (hc : isTypable c = true)
    (hop : isOperator c = true → ∀ d ∈ t.getLast?, isOperator d = false)
    (hpoint : c = '.' → '.' ∉ lastOperand t) : Typed (t ++ [c]) where
  typable := List.forall_mem_append.2 ⟨h.typable, List.forall_mem_singleton.2 hc⟩
  apart := isChain_concat h.apart hop
  points := by
    intro front run rest heq hrun
    rcases List.eq_nil_or_concat rest with rfl | ⟨rest, d, rfl⟩
    · rw [List.append_nil] at heq
      rcases List.eq_nil_or_concat run with rfl | ⟨run, d, rfl⟩
      · exact Nat.zero_le _
      · rw [List.concat_eq_append, ← List.append_assoc] at heq
        obtain ⟨rfl, hd⟩ := List.append_inj' heq rfl
        obtain rfl := List.singleton_inj.1 hd
        have hrun' : ∀ x ∈ run, isOperator x = false := fun x hx => hrun x (by simp [hx])
        rw [List.concat_eq_append, List.count_append, List.count_singleton]
        split
        · rename_i hc
          have hnone : '.' ∉ run := fun hmem =>
            hpoint (beq_iff_eq.1 hc) (mem_lastOperand hrun' hmem)
          rw [List.count_eq_zero.2 hnone]
        · exact h.points front run [] (by simp) hrun'
    · rw [List.concat_eq_append, ← List.append_assoc, ← List.append_assoc] at heq
      obtain ⟨rfl, -⟩ := List.append_inj' heq rfl
      exact h.points front run rest (by simp) hrun

/-! ### Keys -/

theorem typed_singleton (hc : isTypable c = true) : Typed [c] :=
  typed_nil.concat hc (by simp) (by simp [lastOperand])

theorem Typed.withDigit (h : Typed t) (hc : c.isDigit = true) : Typed (withDigit t c) := by
  have hc' := isTypable_of_isDigit hc
  unfold Keypad.withDigit
  split
  · exact typed_singleton hc'
  · refine h.concat hc' ?_ ?_
    · intro hop
      rw [isOperator_of_isDigit hc] at hop
      cases hop
    · rintro rfl
      exact absurd hc (by decide)

theorem Typed.withPoint (h : Typed t) : Typed (withPoint t) := by
  unfold Keypad.withPoint
  split
  · exact h
  · rename_i hnone
    refine h.concat rfl (fun hop => absurd hop (by decide)) fun _ hmem => ?_
    exact hnone (List.contains_iff_mem.2 hmem)

theorem Typed.withOperator (h : Typed t) (hc : isOperator c = true) : Typed (withOperator t c) := by
  have hc' := isTypable_of_isOperator hc
  have hpoint : c ≠ '.' := by
    rintro rfl
    exact absurd hc (by decide)
  unfold Keypad.withOperator
  split
  · split
    · exact typed_singleton rfl
    · exact h
  · split
    · rename_i hlast
      refine h.dropLast.concat hc' (fun _ => ?_) fun heq => absurd heq hpoint
      rcases List.eq_nil_or_concat t with rfl | ⟨front, d, rfl⟩
      · simp
      · rw [List.concat_eq_append] at h hlast ⊢
        rw [List.dropLast_concat]
        exact h.isOperator_eq_false (by simpa using hlast)
    · rename_i hlast
      refine h.concat hc' (fun _ d hd => ?_) fun heq => absurd heq hpoint
      rw [Option.mem_def.1 hd] at hlast
      simpa using hlast

/-- What typing a character makes of a text. -/
theorem typedText?_cases (h : typedText? t c = some t') :
    (∃ d, d.isDigit = true ∧ t' = Keypad.withDigit t d) ∨ t' = Keypad.withPoint t ∨
      (∃ d, isOperator d = true ∧ t' = Keypad.withOperator t d) ∨
      ∃ d, (d = '(' ∨ d = ')') ∧ t' = t ++ [d] := by
  unfold typedText? at h
  generalize operatorOf c = d at h
  simp only at h
  split at h
  · rename_i hdigit
    cases h
    exact .inl ⟨d, hdigit, rfl⟩
  · split at h
    · cases h
      exact .inr (.inl rfl)
    · split at h
      · rename_i hop
        cases h
        exact .inr (.inr (.inl ⟨d, hop, rfl⟩))
      · split at h
        · rename_i hparen
          cases h
          exact .inr (.inr (.inr ⟨d, hparen, rfl⟩))
        · cases h

/-- Typing leaves a text as it is, or puts one character after a front of it. -/
theorem typedText?_eq (h : typedText? t c = some t') :
    t' = t ∨ ∃ front d, front <+: t ∧ isTypable d = true ∧ t' = front ++ [d] := by
  rcases typedText?_cases h with ⟨d, hd, rfl⟩ | rfl | ⟨d, hd, rfl⟩ | ⟨d, hd, rfl⟩
  · have hd := isTypable_of_isDigit hd
    unfold withDigit
    split
    · exact .inr ⟨[], d, List.nil_prefix, hd, rfl⟩
    · exact .inr ⟨t, d, List.prefix_rfl, hd, rfl⟩
  · unfold withPoint
    split
    · exact .inl rfl
    · exact .inr ⟨t, '.', List.prefix_rfl, rfl, rfl⟩
  · have hd := isTypable_of_isOperator hd
    unfold withOperator
    split
    · split
      · exact .inr ⟨[], '-', List.nil_prefix, rfl, rfl⟩
      · exact .inl rfl
    · split
      · exact .inr ⟨t.dropLast, d, t.dropLast_prefix, hd, rfl⟩
      · exact .inr ⟨t, d, List.prefix_rfl, hd, rfl⟩
  · exact .inr ⟨t, d, List.prefix_rfl, by rcases hd with rfl | rfl <;> rfl, rfl⟩

theorem Typed.typedText? (h : Typed t) (ht : typedText? t c = some t') : Typed t' := by
  rcases typedText?_cases ht with ⟨d, hd, rfl⟩ | rfl | ⟨d, hd, rfl⟩ | ⟨d, hd, rfl⟩
  · exact h.withDigit hd
  · exact h.withPoint
  · exact h.withOperator hd
  · obtain ⟨htypable, hop, hpoint⟩ : isTypable d = true ∧ isOperator d = false ∧ d ≠ '.' := by
      rcases hd with rfl | rfl <;> decide
    exact h.concat htypable (by simp [hop]) fun heq => absurd heq hpoint

theorem Typed.input {k : Keypad} (h : Typed k.expression) (c : Char) :
    Typed (k.input c).expression := by
  unfold Keypad.input
  split
  · rename_i t ht
    exact h.typedText? ht
  · exact h

theorem Typed.foldl_input {k : Keypad} (h : Typed k.expression) (cs : Text) :
    Typed (cs.foldl Keypad.input k).expression := by
  induction cs generalizing k with
  | nil => exact h
  | cons c cs ih => exact ih (h.input c)

end KeypadCalc.Keypad
