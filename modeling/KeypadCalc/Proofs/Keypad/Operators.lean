import KeypadCalc.Proofs.Keypad.Dividing

/-! The operators of an expression. Each key that writes at the end looks at the last character, and
numbers as they are written have no two operators next to each other, not even those with a power of
ten. So operators stay apart, and only a minus comes first. -/

namespace KeypadCalc.Keypad

open Binary64
open Decimal.Numeral (value?)
open NumberText
open Sanitizer

/-- Only a minus begins a text among the operators, and no two of them are next to each other. -/
structure OperatorsApart (t : Text) : Prop where
  start : ∀ c ∈ t.head?, isOperator c = true → c = '-'
  apart : t.IsChain fun c d => ¬(isOperator c = true ∧ isOperator d = true)

variable {t t' a b m numeral : Text} {c : Char} {v : Float} {k : Keypad}

/-! ### Fronts and ends -/

theorem isChain_of_forall (h : ∀ c ∈ t, isOperator c = false) :
    t.IsChain fun c d => ¬(isOperator c = true ∧ isOperator d = true) := by
  induction t with
  | nil => exact .nil
  | cons c t ih =>
    obtain ⟨hc, ht⟩ := List.forall_mem_cons.1 h
    exact (ih ht).cons fun d _ => by simp [hc]

theorem operatorsApart_nil : OperatorsApart [] := ⟨by simp, .nil⟩

theorem operatorsApart_of_forall (h : ∀ c ∈ t, isOperator c = false) : OperatorsApart t where
  start := by
    intro c hc hop
    rw [h c (List.mem_of_mem_head? hc)] at hop
    cases hop
  apart := isChain_of_forall h

theorem OperatorsApart.of_append (h : OperatorsApart (a ++ b)) : OperatorsApart a where
  start := by
    intro c hc
    exact h.start c (by rw [List.head?_append, Option.mem_def.1 hc]; rfl)
  apart := h.apart.left_of_append

theorem OperatorsApart.dropLast (h : OperatorsApart t) : OperatorsApart t.dropLast := by
  obtain ⟨last, heq⟩ := t.dropLast_prefix
  rw [← heq] at h
  exact h.of_append

theorem OperatorsApart.append (ha : OperatorsApart a) (hb : OperatorsApart b)
    (hseam : ∀ c ∈ a.getLast?, ∀ d ∈ b.head?, isOperator d = true → isOperator c = false) :
    OperatorsApart (a ++ b) where
  start := by
    intro c hc
    rw [List.head?_append, Option.mem_def, Option.or_eq_some_iff] at hc
    rcases hc with hc | ⟨-, hc⟩
    · exact ha.start c hc
    · exact hb.start c hc
  apart := isChain_append ha.apart hb.apart hseam

theorem OperatorsApart.concat (h : OperatorsApart t) (hne : t ≠ [])
    (hlast : isOperator c = true → ∀ d ∈ t.getLast?, isOperator d = false) :
    OperatorsApart (t ++ [c]) where
  start := by
    intro d hd
    rw [List.head?_append_of_ne_nil _ hne] at hd
    exact h.start d hd
  apart := isChain_concat h.apart hlast

/-! ### Numbers -/

theorem isOperator_of_isLiteral {u : Text} (h : IsLiteral u) : ∀ c ∈ u, isOperator c = false := by
  intro c hc
  rcases h.forall_mem c hc with hdigit | rfl
  · exact isOperator_of_isDigit hdigit
  · rfl

theorem isOperator_head?_of_isMagnitude (h : IsMagnitude m) :
    ∀ c ∈ m.head?, isOperator c = false := by
  intro c hc
  cases h with
  | literal hu => exact isOperator_of_isLiteral hu c (List.mem_of_mem_head? hc)
  | power hu =>
    rw [List.head?_append_of_ne_nil _ hu.ne_nil] at hc
    exact isOperator_of_isLiteral hu c (List.mem_of_mem_head? hc)
  | infinity | nan =>
    cases hc
    rfl

/-- The sign of a power of ten stands between a letter and a digit. -/
theorem operatorsApart_of_isMagnitude (h : IsMagnitude m) : OperatorsApart m where
  start := by
    intro c hc hop
    rw [isOperator_head?_of_isMagnitude h c hc] at hop
    cases hop
  apart := by
    cases h with
    | literal hu => exact isChain_of_forall (isOperator_of_isLiteral hu)
    | @power u ds sign hu hsign hds =>
      have hdigits : ∀ c ∈ ds, isOperator c = false := fun c hc => isOperator_of_isDigit (hds c hc)
      refine (isChain_of_forall (isOperator_of_isLiteral hu)).append ?_ ?_
      · refine ((isChain_of_forall hdigits).cons fun d hd => ?_).cons fun d _ => ?_
        · simp [hdigits d (List.mem_of_mem_head? hd)]
        · simp [show isOperator 'e' = false from rfl]
      · rintro c - d ⟨⟩ ⟨-, hop⟩
        cases hop
    | infinity | nan => decide

theorem isOperator_head?_plain (h : isNegative v = false) :
    ∀ c ∈ (plain v).head?, isOperator c = false := by
  rcases plain_cases v with ⟨-, hm⟩ | ⟨hsign, -⟩
  · exact isOperator_head?_of_isMagnitude hm
  · rw [h] at hsign
    cases hsign

theorem operatorsApart_plain (v : Float) : OperatorsApart (plain v) := by
  rcases plain_cases v with ⟨-, hm⟩ | ⟨-, hzero | ⟨m, heq, hm⟩⟩
  · exact operatorsApart_of_isMagnitude hm
  · rw [hzero]
    exact operatorsApart_of_forall (List.forall_mem_singleton.2 rfl)
  · rw [heq]
    refine ⟨by simp, (operatorsApart_of_isMagnitude hm).apart.cons fun d hd => ?_⟩
    simp [isOperator_head?_of_isMagnitude hm d hd]

/-! ### Keys -/

theorem operatorsApart_singleton (hc : isOperator c = true → c = '-') : OperatorsApart [c] :=
  ⟨by simpa using hc, .singleton c⟩

theorem OperatorsApart.concat_of_not_isOperator (h : OperatorsApart t)
    (hc : isOperator c = false) : OperatorsApart (t ++ [c]) := by
  by_cases hne : t = []
  · subst hne
    exact operatorsApart_singleton (by simp [hc])
  · exact h.concat hne (by simp [hc])

theorem OperatorsApart.withDigit (h : OperatorsApart t) (hc : c.isDigit = true) :
    OperatorsApart (withDigit t c) := by
  have hop := isOperator_of_isDigit hc
  unfold Keypad.withDigit
  split
  · exact operatorsApart_singleton (by simp [hop])
  · exact h.concat_of_not_isOperator hop

theorem OperatorsApart.withPoint (h : OperatorsApart t) : OperatorsApart (withPoint t) := by
  unfold Keypad.withPoint
  split
  · exact h
  · exact h.concat_of_not_isOperator rfl

/-- An operator takes the place of one at the end, which is not the first character unless it is
a minus. -/
theorem OperatorsApart.withOperator (h : OperatorsApart t) : OperatorsApart (withOperator t c) := by
  unfold Keypad.withOperator
  split
  · split
    · exact operatorsApart_singleton fun _ => rfl
    · exact h
  · rename_i hother
    obtain ⟨hnil, hminus⟩ := not_or.1 hother
    obtain ⟨front, d, rfl⟩ := (List.eq_nil_or_concat t).resolve_left hnil
    rw [List.concat_eq_append] at h hminus ⊢
    rw [List.dropLast_concat, List.getLast?_concat, Option.any_some]
    split
    · rename_i hop
      refine h.of_append.concat ?_ fun _ e he => isOperator_of_isChain h.apart e he d rfl hop
      rintro rfl
      exact hminus (congrArg (fun e => [e]) (h.start d rfl hop))
    · rename_i hop
      refine h.concat (by simp) fun _ e he => ?_
      rw [List.getLast?_concat] at he
      cases he
      simpa using hop

theorem OperatorsApart.typedText? (h : OperatorsApart t) (ht : typedText? t c = some t') :
    OperatorsApart t' := by
  rcases typedText?_cases ht with ⟨d, hd, rfl⟩ | rfl | ⟨d, -, rfl⟩ | ⟨d, hd, rfl⟩
  · exact h.withDigit hd
  · exact h.withPoint
  · exact h.withOperator
  · exact h.concat_of_not_isOperator (by rcases hd with rfl | rfl <;> rfl)

/-! ### A hundredth of the number at the end -/

/-- The sign of a number that is read is that of its numeral. -/
theorem isNegative_of_value? (h : value? t = some v) :
    isNegative v = true ↔ t.head? = some '-' := by
  unfold value? at h
  split at h
  · obtain ⟨d, -, rfl⟩ := Option.map_eq_some_iff.1 h
    rw [Decimal.toFloat_eq_rounded, neg_rounded, isNegative_rounded]
    exact iff_of_true rfl rfl
  · rename_i hnot
    obtain ⟨d, -, rfl⟩ := Option.map_eq_some_iff.1 h
    rw [Decimal.toFloat_eq_rounded, isNegative_rounded]
    refine iff_of_false (by decide) fun hhead => ?_
    cases t with
    | nil => cases hhead
    | cons c t =>
      cases hhead
      exact hnot t rfl

/-- A number with its sign is put where a number with the same sign stood. -/
theorem OperatorsApart.hundredth (h : OperatorsApart (a ++ numeral))
    (hv : value? numeral = some v) : OperatorsApart (a ++ plain (v / 100.0)) := by
  refine h.of_append.append (operatorsApart_plain _) fun c hc d hd hop => ?_
  obtain ⟨-, hsign, -⟩ := div_hundred_spec (Decimal.Numeral.isNaN_of_value? hv)
  cases hnegative : isNegative (v / 100.0) with
  | false =>
    rw [isOperator_head?_plain hnegative d hd] at hop
    cases hop
  | true =>
    rw [hnegative] at hsign
    have hminus := (isNegative_of_value? hv).1 hsign.symm
    exact isOperator_of_isChain h.apart c hc '-' hminus rfl

theorem OperatorsApart.percent (h : OperatorsApart k.expression) :
    OperatorsApart k.percent.expression := by
  rcases percent_cases k with ⟨-, hpercent⟩ | ⟨-, hpercent⟩ | ⟨front, v, hsome, hpercent⟩ <;>
    rw [hpercent]
  · exact operatorsApart_singleton (by decide)
  · exact h
  · obtain ⟨numeral, hsplit, hvalue⟩ := exists_of_dividend? hsome
    rw [← splitNumeral?_append hsplit] at h
    exact h.hundredth hvalue

end KeypadCalc.Keypad
