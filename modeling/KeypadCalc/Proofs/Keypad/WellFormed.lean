import KeypadCalc.Proofs.Keypad.Operators
import KeypadCalc.Proofs.Session

/-! The texts that can be typed. What is left of any characters keeps four rules, and a text that
keeps them is left as it is when its characters are typed one by one: no key drops or changes
anything of it. -/

namespace KeypadCalc

namespace Keypad

open Sanitizer

/-- The rules of a text: keypad characters alone, a minus at most of the operators at the start, no
two operators next to each other, one point at most between operators, and no digit after a zero
that begins the text. -/
structure WellFormed (t : Text) : Prop extends Typed t, OperatorsApart t where
  zero : ∀ c rest, t = '0' :: c :: rest → c.isDigit = false

variable {t t' b : Text} {c : Char} {k : Keypad}

theorem wellFormed_nil : WellFormed [] := ⟨typed_nil, operatorsApart_nil.start, by simp⟩

theorem WellFormed.of_append (h : WellFormed (t ++ b)) : WellFormed t where
  toTyped := h.toTyped.of_append
  start := h.toOperatorsApart.of_append.start
  zero := by
    rintro c rest rfl
    exact h.zero c (rest ++ b) rfl

theorem WellFormed.dropLast (h : WellFormed t) : WellFormed t.dropLast := by
  obtain ⟨last, heq⟩ := t.dropLast_prefix
  rw [← heq] at h
  exact h.of_append

/-! ### What keys leave -/

theorem zero_concat (h : ∀ c rest, t = '0' :: c :: rest → c.isDigit = false)
    (hc : t = ['0'] → c.isDigit = false) :
    ∀ d rest, t ++ [c] = '0' :: d :: rest → d.isDigit = false := by
  rintro d rest heq
  cases t with
  | nil => cases heq
  | cons e t =>
    obtain ⟨rfl, htail⟩ := List.cons_eq_cons.1 heq
    cases t with
    | nil =>
      obtain ⟨rfl, -⟩ := List.cons_eq_cons.1 htail
      exact hc rfl
    | cons f t =>
      obtain ⟨rfl, -⟩ := List.cons_eq_cons.1 htail
      exact h f t rfl

/-- A digit takes the place of a zero that stands alone, and other characters are no digits. -/
theorem WellFormed.zero_typedText? (h : WellFormed t) (ht : typedText? t c = some t') :
    ∀ d rest, t' = '0' :: d :: rest → d.isDigit = false := by
  rcases typedText?_cases ht with ⟨d, hd, rfl⟩ | rfl | ⟨d, hd, rfl⟩ | ⟨d, hd, rfl⟩
  · unfold withDigit
    split
    · simp
    · rename_i hzero
      exact zero_concat h.zero fun heq => absurd heq hzero
  · unfold withPoint
    split
    · exact h.zero
    · exact zero_concat h.zero fun _ => rfl
  · have hdigit : d.isDigit = false := by
      by_contra hdigit
      rw [isOperator_of_isDigit (by simpa using hdigit)] at hd
      cases hd
    unfold withOperator
    split
    · split
      · simp
      · exact h.zero
    · split
      · exact zero_concat h.dropLast.zero fun _ => hdigit
      · exact zero_concat h.zero fun _ => hdigit
  · exact zero_concat h.zero fun _ => by rcases hd with rfl | rfl <;> rfl

theorem WellFormed.typedText? (h : WellFormed t) (ht : typedText? t c = some t') :
    WellFormed t' where
  toTyped := h.toTyped.typedText? ht
  start := (h.toOperatorsApart.typedText? ht).start
  zero := h.zero_typedText? ht

theorem WellFormed.input (h : WellFormed k.expression) (c : Char) :
    WellFormed (k.input c).expression := by
  unfold Keypad.input
  split
  · rename_i t ht
    exact h.typedText? ht
  · exact h

theorem WellFormed.foldl_input (h : WellFormed k.expression) (cs : Text) :
    WellFormed (cs.foldl Keypad.input k).expression := by
  induction cs generalizing k with
  | nil => exact h
  | cons c cs ih => exact ih (h.input c)

/-! ### What keys leave as it is -/

/-- A point can be typed where it makes no second one. -/
theorem WellFormed.withPoint_eq (h : WellFormed (t ++ ['.'])) : withPoint t = t ++ ['.'] := by
  rw [withPoint, if_neg]
  intro hpoint
  have hoperand : ∀ c ∈ lastOperand t, isOperator c = false := fun c hc => by
    simpa using List.mem_rtakeWhile_imp hc
  have hcount : (lastOperand t ++ ['.']).count '.' ≤ 1 := by
    refine h.points (t.rdropWhile fun c => !isOperator c) _ [] ?_
      (List.forall_mem_append.2 ⟨hoperand, List.forall_mem_singleton.2 rfl⟩)
    rw [List.append_nil, ← List.append_assoc]
    exact congrArg (· ++ ['.']) (List.rdropWhile_append_rtakeWhile ..).symm
  rw [List.count_append, List.count_singleton_self] at hcount
  exact List.count_eq_zero.1 (by omega) (List.contains_iff_mem.1 hpoint)

theorem WellFormed.withOperator_eq (h : WellFormed (t ++ [c])) (hc : isOperator c = true) :
    withOperator t c = t ++ [c] := by
  have hlast := h.toTyped.isOperator_eq_false hc
  by_cases hnil : t = []
  · subst hnil
    obtain rfl := h.start c rfl hc
    rfl
  · rw [withOperator, if_neg, if_neg]
    · intro hany
      obtain ⟨d, hd, hop⟩ := (Option.any_eq_true _ _).1 hany
      rw [hlast d hd] at hop
      cases hop
    · rintro (rfl | rfl)
      · exact hnil rfl
      · exact absurd (hlast '-' rfl) (by decide)

/-- A key whose character keeps the rules at the end writes it there. -/
theorem WellFormed.typedText?_eq (h : WellFormed (t ++ [c])) :
    Keypad.typedText? t c = some (t ++ [c]) := by
  have hc : isTypable c = true := h.typable c (by simp)
  rw [Keypad.typedText?, operatorOf_of_isAllowed (isAllowed_of_isTypable hc)]
  split
  · rename_i hdigit
    rw [withDigit, if_neg]
    rintro rfl
    rw [h.zero c [] rfl] at hdigit
    cases hdigit
  · rename_i hdigit
    split
    · rename_i hpoint
      subst hpoint
      rw [h.withPoint_eq]
    · rename_i hpoint
      split
      · rename_i hop
        rw [h.withOperator_eq hop]
      · rename_i hop
        have hparen : c = '(' ∨ c = ')' := by
          simpa [isTypable, hdigit, hpoint, hop] using hc
        rw [if_pos hparen]

theorem expression_foldl_input (h : WellFormed t) :
    (t.foldl Keypad.input empty).expression = t := by
  induction t using List.reverseRecOn with
  | nil => rfl
  | append_singleton t c ih =>
    rw [List.foldl_concat, Keypad.input, ih h.of_append, h.typedText?_eq]
    rfl

end Keypad

namespace Session

open Keypad (WellFormed)

/-- Whatever is typed into a new session, the expression keeps the rules; and a text keeps the rules
exactly if typing it leaves it as it is. -/
theorem wellFormed_iff_foldl_input_eq (history : History) (records : Bool) :
    let typed := fun cs : Text => (cs.foldl input (new history records)).keypad.expression
    (∀ cs, WellFormed (typed cs)) ∧ ∀ t, WellFormed t ↔ typed t = t := by
  intro typed
  have htyped : ∀ cs, typed cs = (cs.foldl Keypad.input .empty).expression := fun cs =>
    congrArg Keypad.expression (keypad_foldl_input (new history records) cs)
  have hall : ∀ cs, WellFormed (typed cs) := fun cs => by
    rw [htyped]
    exact Keypad.wellFormed_nil.foldl_input cs
  refine ⟨hall, fun t => ⟨fun h => ?_, fun h => ?_⟩⟩
  · rw [htyped]
    exact Keypad.expression_foldl_input h
  · rw [← h]
    exact hall t

end Session

end KeypadCalc
