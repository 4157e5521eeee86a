import KeypadCalc.Proofs.Keypad.Typing
import KeypadCalc.Proofs.NumberText
import KeypadCalc.Proofs.Percent

/-! What the percent key writes. It finds the longest literal at the end of the text together with a
minus sign before it, and writes a hundredth of both. The sign stays in place unless the literal is
worth nothing: zero is written without it. -/

namespace KeypadCalc.Keypad

open Binary64
open Decimal.Numeral (value?)
open NumberText
open Sanitizer
open Text (isDecimalDigit)

variable {a b t u front : Text} {c : Char} {v : Float} {k : Keypad}

/-! ### The numeral at the end -/

theorem isDecimalDigit_of_isDigit (h : c.isDigit = true) : isDecimalDigit c = true := by
  simp only [Char.isDigit, Bool.and_eq_true, decide_eq_true_eq] at h
  rw [isDecimalDigit, Text.decimalDigitRanges, List.any_cons, Bool.or_eq_true]
  left
  simp only [Bool.and_eq_true, decide_eq_true_eq]
  exact h

theorem isDigit_of_isDecimalDigit (hc : isTypable c = true) (h : isDecimalDigit c = true) :
    c.isDigit = true := by
  simp only [isTypable, isOperator, Bool.or_eq_true, beq_iff_eq] at hc
  rcases hc with (((hc | rfl) | ((((rfl | rfl) | rfl) | rfl) | rfl)) | rfl) | rfl
  · exact hc
  all_goals exact absurd h (by decide)

/-- A text of decimal digits, with perhaps a point and more of them. -/
def isUnsigned (t : Text) : Bool :=
  t.head?.any isDecimalDigit &&
    match t.dropWhile isDecimalDigit with
    | [] => true
    | point :: digits => point == '.' && !digits.isEmpty && digits.all isDecimalDigit

theorem isNumeral_minus (t : Text) : isNumeral ('-' :: t) = isUnsigned t := rfl

theorem isNumeral_of_head?_ne (h : t.head? ≠ some '-') : isNumeral t = isUnsigned t := by
  rw [isNumeral, if_neg h]
  rfl

theorem head?_ne_of_isLiteral (h : IsLiteral u) : u.head? ≠ some '-' := by
  obtain ⟨c, t, rfl, hc⟩ := h.exists_cons
  intro heq
  cases heq
  exact absurd hc (by decide)

theorem isUnsigned_of_isLiteral (h : IsLiteral u) : isUnsigned u = true := by
  have hdigits : ∀ ds : Text, (∀ c ∈ ds, c.isDigit) → ∀ w,
      (ds ++ w).dropWhile isDecimalDigit = w.dropWhile isDecimalDigit := fun ds hd w =>
    List.dropWhile_append_of_pos fun c hc => isDecimalDigit_of_isDigit (hd c hc)
  have hhead : u.head?.any isDecimalDigit = true := by
    obtain ⟨c, t, rfl, hc⟩ := h.exists_cons
    exact isDecimalDigit_of_isDigit hc
  rw [isUnsigned, hhead, Bool.true_and]
  cases h with
  | whole _ hd =>
    have hdrop := hdigits u hd []
    rw [List.append_nil] at hdrop
    rw [hdrop]
    rfl
  | @point ds fs _ hne hd hf =>
    rw [hdigits ds hd, List.dropWhile_cons_of_neg (by decide)]
    simp only [beq_self_eq_true, Bool.true_and, Bool.and_eq_true, List.all_eq_true]
    exact ⟨by simpa using hne, fun c hc => isDecimalDigit_of_isDigit (hf c hc)⟩

theorem isLiteral_of_isUnsigned (ht : ∀ c ∈ t, isTypable c = true) (h : isUnsigned t = true) :
    IsLiteral t := by
  have hsplit := List.takeWhile_append_dropWhile (p := isDecimalDigit) (l := t)
  have hdigit : ∀ c ∈ t.takeWhile isDecimalDigit, c.isDigit := fun c hc =>
    isDigit_of_isDecimalDigit (ht c ((List.takeWhile_sublist _).subset hc))
      (List.mem_takeWhile_imp hc)
  rw [isUnsigned, Bool.and_eq_true] at h
  obtain ⟨hhead, hrest⟩ := h
  have hne : t.takeWhile isDecimalDigit ≠ [] := by
    cases t with
    | nil => cases hhead
    | cons c t => simp [show isDecimalDigit c = true from hhead]
  split at hrest
  · rename_i hnil
    rw [hnil, List.append_nil] at hsplit
    rw [← hsplit]
    exact .whole hne hdigit
  · rename_i point digits hcons
    simp only [Bool.and_eq_true, beq_iff_eq, List.all_eq_true] at hrest
    obtain ⟨⟨rfl, hne'⟩, hall⟩ := hrest
    rw [hcons] at hsplit
    have hdigits : ∀ c ∈ digits, c.isDigit := fun c hc =>
      isDigit_of_isDecimalDigit (ht c (by rw [← hsplit]; simp [hc])) (hall c hc)
    rw [← hsplit]
    exact .point hne (by simpa using hne') hdigit hdigits

/-- The numerals among the texts that are typed are literals with perhaps a minus sign. -/
theorem isNumeral_iff (ht : ∀ c ∈ t, isTypable c = true) :
    isNumeral t = true ↔ IsLiteral t ∨ ∃ u, t = '-' :: u ∧ IsLiteral u := by
  constructor
  · intro h
    by_cases hminus : t.head? = some '-'
    · obtain ⟨u, rfl⟩ : ∃ u, t = '-' :: u := by
        cases t with
        | nil => cases hminus
        | cons c u =>
          cases hminus
          exact ⟨u, rfl⟩
      rw [isNumeral_minus] at h
      exact .inr ⟨u, rfl, isLiteral_of_isUnsigned (List.forall_mem_cons.1 ht).2 h⟩
    · rw [isNumeral_of_head?_ne hminus] at h
      exact .inl (isLiteral_of_isUnsigned ht h)
  · rintro (h | ⟨u, rfl, h⟩)
    · rw [isNumeral_of_head?_ne (head?_ne_of_isLiteral h)]
      exact isUnsigned_of_isLiteral h
    · exact isUnsigned_of_isLiteral h

theorem splitNumeral?_append {numeral : Text} (h : splitNumeral? t = some (front, numeral)) :
    front ++ numeral = t := by
  induction t generalizing front with
  | nil => cases h
  | cons c t ih =>
    rw [splitNumeral?] at h
    split at h
    · cases h
      rfl
    · obtain ⟨s, hs, heq⟩ := Option.map_eq_some_iff.1 h
      cases heq
      exact congrArg (c :: ·) (ih hs)

/-- Nothing before the numeral that is found belongs to a longer one. -/
theorem isNumeral_of_splitNumeral? {more numeral : Text}
    (h : splitNumeral? t = some (front ++ more, numeral)) :
    isNumeral (more ++ numeral) = true ↔ more = [] := by
  induction t generalizing front with
  | nil => cases h
  | cons c t ih =>
    rw [splitNumeral?] at h
    split at h
    · rename_i hnum
      obtain ⟨hnil, rfl⟩ := Prod.ext_iff.1 (Option.some.inj h)
      obtain ⟨-, rfl⟩ := List.append_eq_nil_iff.1 hnil.symm
      exact iff_of_true hnum rfl
    · rename_i hnot
      obtain ⟨⟨front', numeral'⟩, hs, heq⟩ := Option.map_eq_some_iff.1 h
      obtain ⟨hfront, rfl⟩ := Prod.ext_iff.1 heq
      cases front with
      | nil =>
        obtain rfl : c :: front' = more := hfront
        rw [List.cons_append, splitNumeral?_append hs]
        exact iff_of_false hnot (List.cons_ne_nil _ _)
      | cons d front =>
        obtain ⟨-, rfl⟩ := List.cons_eq_cons.1 hfront
        exact ih hs

/-- The numeral that is found is the longest one at the end. -/
theorem splitNumeral?_eq (hb : isNumeral b = true)
    (hlongest : ∀ front more, a = front ++ more → isNumeral (more ++ b) = true → more = []) :
    splitNumeral? (a ++ b) = some (a, b) := by
  induction a with
  | nil =>
    cases b with
    | nil => cases hb
    | cons c b => rw [List.nil_append, splitNumeral?, if_pos hb]
  | cons c a ih =>
    have hnot : ¬isNumeral (c :: (a ++ b)) = true := fun h => by
      cases hlongest [] (c :: a) rfl h
    rw [List.cons_append, splitNumeral?, if_neg hnot, ih]
    · rfl
    · intro front more ha
      exact hlongest (c :: front) more (by rw [ha]; rfl)

theorem splitNumeral?_of_minus (ht : ∀ c ∈ front ++ '-' :: u, isTypable c = true)
    (hu : IsLiteral u) : splitNumeral? (front ++ '-' :: u) = some (front, '-' :: u) := by
  refine splitNumeral?_eq (isUnsigned_of_isLiteral hu) fun f more hmore h => ?_
  subst hmore
  have ht' : ∀ c ∈ more ++ '-' :: u, isTypable c = true := fun c hc => ht c (by simp_all)
  rcases (isNumeral_iff ht').1 h with hliteral | ⟨w, hw, hliteral⟩
  · exact absurd (by simp) hliteral.minus_notMem
  · cases more with
    | nil => rfl
    | cons d more =>
      obtain ⟨-, rfl⟩ := List.cons_eq_cons.1 hw
      exact absurd (by simp) hliteral.minus_notMem

theorem splitNumeral?_of_not_minus (ht : ∀ c ∈ a ++ u, isTypable c = true)
    (ha : a.getLast? ≠ some '-') (hu : IsLiteral u) (hlongest : IsLongestEnd a u) :
    splitNumeral? (a ++ u) = some (a, u) := by
  have hnum : isNumeral u = true := by
    rw [isNumeral_of_head?_ne (head?_ne_of_isLiteral hu)]
    exact isUnsigned_of_isLiteral hu
  refine splitNumeral?_eq hnum fun f more hmore h => ?_
  have ht' : ∀ c ∈ more ++ u, isTypable c = true := fun c hc => ht c (by rw [hmore]; simp_all)
  rcases (isNumeral_iff ht').1 h with hliteral | ⟨w, hw, hliteral⟩
  · exact hlongest f more hmore hliteral
  · cases more with
    | nil => rfl
    | cons d more =>
      obtain ⟨rfl, rfl⟩ := List.cons_eq_cons.1 hw
      obtain rfl := hlongest (f ++ ['-']) more (by rw [hmore]; simp) hliteral
      rw [hmore] at ha
      exact absurd (by simp) ha

/-! ### A hundredth of it -/

/-- The number that a text ends in, after the text before it. -/
def dividend? (t : Text) : Option (Text × Float) :=
  (splitNumeral? t).bind fun s => (value? s.2).map (Prod.mk s.1)

theorem exists_of_dividend? (h : dividend? t = some (front, v)) :
    ∃ numeral, splitNumeral? t = some (front, numeral) ∧ value? numeral = some v := by
  obtain ⟨⟨front', numeral⟩, hsplit, hvalue⟩ := Option.bind_eq_some_iff.1 h
  obtain ⟨w, hw, heq⟩ := Option.map_eq_some_iff.1 hvalue
  cases heq
  exact ⟨numeral, hsplit, hw⟩

/-- What the percent key does: it writes a zero into an empty expression, leaves one that ends in no
number, and divides the number of any other. -/
theorem percent_cases (k : Keypad) :
    (k.expression = [] ∧ k.percent = k.withText ['0']) ∨
      (dividend? k.expression = none ∧ k.percent = k) ∨
      ∃ front v, dividend? k.expression = some (front, v) ∧
        k.percent = k.withText (front ++ plain (v / 100.0)) := by
  unfold dividend? percent
  by_cases hnil : k.expression = []
  · exact .inl ⟨hnil, if_pos hnil⟩
  · refine .inr ?_
    rw [if_neg hnil]
    cases splitNumeral? k.expression with
    | none => exact .inl ⟨rfl, rfl⟩
    | some split =>
      obtain ⟨front, numeral⟩ := split
      simp only [Option.bind_some]
      cases value? numeral with
      | none => exact .inl ⟨rfl, rfl⟩
      | some v => exact .inr ⟨front, v, rfl, rfl⟩

theorem isNegative_of_isLiteral (hu : IsLiteral u) (hv : value? u = some v) :
    isNegative v = false ∧ value? ('-' :: u) = some (-v) := by
  have hnumeral := Percent.isNumeral_of_isLiteral hu
  refine ⟨?_, by rw [hnumeral.value?_minus, hv]; rfl⟩
  rw [hnumeral.value?_eq] at hv
  obtain ⟨d, -, rfl⟩ := Option.map_eq_some_iff.1 hv
  rw [Decimal.toFloat_eq_rounded, isNegative_rounded]

theorem isNegative_hundredth (hu : IsLiteral u) (hv : value? u = some v) :
    isNegative (v / 100.0) = false := by
  obtain ⟨-, hsign, -⟩ := div_hundred_spec (Decimal.Numeral.isNaN_of_value? hv)
  exact hsign.trans (isNegative_of_isLiteral hu hv).1

theorem percent_of_split {numeral : Text} {w : Float}
    (hsplit : splitNumeral? k.expression = some (front, numeral))
    (hw : value? numeral = some w) : k.percent = k.withText (front ++ plain (w / 100.0)) := by
  have hne : k.expression ≠ [] := fun hnil => by
    rw [hnil] at hsplit
    cases hsplit
  rw [percent, if_neg hne, hsplit]
  simp only [hw]

theorem percent_of_not_minus (ht : ∀ c ∈ a ++ u, isTypable c = true)
    (ha : a.getLast? ≠ some '-') (hu : IsLiteral u) (hlongest : IsLongestEnd a u)
    (hv : value? u = some v) (hk : k.expression = a ++ u) :
    k.percent.expression = a ++ plain (v / 100.0) := by
  have hsplit := splitNumeral?_of_not_minus ht ha hu hlongest
  rw [← hk] at hsplit
  rw [percent_of_split hsplit hv]
  rfl

theorem percent_of_minus (ht : ∀ c ∈ front ++ '-' :: u, isTypable c = true) (hu : IsLiteral u)
    (hv : value? u = some v) (hk : k.expression = front ++ '-' :: u) :
    k.percent.expression = front ++ plain (-(v / 100.0)) := by
  have hsplit := splitNumeral?_of_minus ht hu
  rw [← hk] at hsplit
  obtain ⟨-, hminus⟩ := isNegative_of_isLiteral hu hv
  rw [percent_of_split hsplit hminus, (div_hundred_spec (Decimal.Numeral.isNaN_of_value? hv)).2.2]
  rfl

/-- What the percent key makes of a text that ends in a longest literal `u` worth `v`. -/
theorem percent_spec (ht : ∀ c ∈ a ++ u, isTypable c = true) (hu : IsLiteral u)
    (hlongest : IsLongestEnd a u) (hv : value? u = some v) (hk : k.expression = a ++ u) :
    (∀ front, a = front ++ ['-'] → (v / 100.0 == 0.0) = true →
        k.percent.expression = front ++ ['0']) ∧
      (Positional (v / 100.0) → a.getLast? ≠ some '-' ∨ (v / 100.0 == 0.0) = false →
        k.percent.expression = a ++ plain (v / 100.0)) ∧
      (¬Positional (v / 100.0) → foreign? k.percent.expression ≠ none) := by
  have hsign := isNegative_hundredth hu hv
  obtain ⟨hnan, -⟩ := div_hundred_spec (Decimal.Numeral.isNaN_of_value? hv)
  by_cases hminus : a.getLast? = some '-'
  · obtain ⟨front, rfl⟩ := List.getLast?_eq_some_iff.1 hminus
    rw [List.append_assoc, List.singleton_append] at ht hk
    have hpercent := percent_of_minus ht hu hv hk
    rw [hpercent]
    refine ⟨fun front' hfront hzero => ?_, fun hpositional hne => ?_, fun hnot => ?_⟩
    · obtain ⟨rfl, -⟩ := List.append_inj' hfront rfl
      have hfinite : (v / 100.0).isFinite = true := Positional.isFinite (.inl hzero)
      have hunits : units (-(v / 100.0)) = 0 := by
        rw [units_neg hfinite]
        exact (beq_zero_iff hfinite).1 hzero
      rw [plain_of_units_eq_zero (isFinite_neg hfinite) hunits]
    · have hunits : units (v / 100.0) ≠ 0 := by
        rw [ne_eq, ← beq_zero_iff hpositional.isFinite,
          hne.resolve_left (fun h => h hminus)]
        decide
      rw [plain_neg hpositional.isFinite hunits hsign]
      simp
    · rw [foreign?_append]
      rcases foreign?_plain_of_not_positional (positional_neg.not.2 hnot) (isNaN_neg hnan) with
        hletter | hletter <;> simp [hletter]
  · rw [percent_of_not_minus ht hminus hu hlongest hv hk]
    refine ⟨?_, fun _ _ => rfl, fun hnot => ?_⟩
    · rintro front rfl
      exact absurd (by simp) hminus
    · rw [foreign?_append]
      rcases foreign?_plain_of_not_positional hnot hnan with hletter | hletter <;> simp [hletter]

end KeypadCalc.Keypad
