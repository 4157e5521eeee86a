import KeypadCalc.Proofs.Evaluation
import KeypadCalc.Proofs.Keypad.Dividing
import KeypadCalc.Proofs.Percent.Ending
import KeypadCalc.Proofs.Session

/-! The percent key against the percent sign. The key writes a hundredth of the number at the end as
a literal, the sign makes a division of it; both are the last factor of what was typed, since at
most one sign stands right before them. -/

namespace KeypadCalc.Keypad

open Binary64 (beq_zero_iff)
open Decimal.Numeral (value?)
open Evaluation (evaluate)
open NumberText
open Sanitizer
open Percent (FewSigns Symbol isNumeral_of_isLiteral)

variable {a t u w front : Text} {c : Char} {q v : Float} {ts : List Token}

/-! ### Tokens before the last number -/

theorem exists_ofSymbol? (hc : isTypable c = true) (hdigit : ¬c.isDigit) (hpoint : c ≠ '.') :
    ∃ token, Token.ofSymbol? c = some token := by
  simp only [isTypable, isOperator, Bool.or_eq_true, beq_iff_eq] at hc
  rcases hc with (((hc | rfl) | ((((rfl | rfl) | rfl) | rfl) | rfl)) | rfl) | rfl
  · exact absurd hc hdigit
  · exact absurd rfl hpoint
  all_goals exact ⟨_, rfl⟩

/-- A text that does not end in a sign has another token at its end. -/
theorem exists_last_of_hasTokens (hc : isTypable c = true) (hplus : c ≠ '+') (hminus : c ≠ '-')
    (h : HasTokens (t ++ [c]) ts) :
    ∃ before token, ts = before ++ [token] ∧ ¬(Symbol.token token).IsSign := by
  by_cases hnumeral : (c.isDigit || c == '.') = true
  · obtain ⟨before, v, rfl⟩ := exists_number_of_hasTokens hnumeral h
    exact ⟨before, _, rfl, by simp [Symbol.IsSign]⟩
  · simp only [Bool.or_eq_true, beq_iff_eq, not_or] at hnumeral
    obtain ⟨token, htoken⟩ := exists_ofSymbol? hc hnumeral.1 hnumeral.2
    obtain ⟨before, -, rfl⟩ := (hasTokens_concat_symbol htoken).1 h
    refine ⟨before, token, rfl, ?_⟩
    rcases Lexeme.ofSymbol?_cases htoken with rfl | rfl | rfl | rfl | rfl | rfl | rfl
    · exact absurd rfl hplus
    · exact absurd rfl hminus
    all_goals
      cases htoken
      simp [Symbol.IsSign]

theorem fewSigns_of_no_sign (ha : Typed a) (hend : ∀ c ∈ a.getLast?, c ≠ '+' ∧ c ≠ '-')
    (h : HasTokens (expandPercents a) ts) : FewSigns 1 (ts.map .token) := by
  rcases List.eq_nil_or_concat (expandPercents a) with hnil | ⟨init, d, hinit⟩
  · rw [hnil] at h
    rw [h.unique hasTokens_nil]
    exact Percent.fewSigns_nil Nat.one_pos
  · rw [List.concat_eq_append] at hinit
    have hd : isTypable d = true ∧ d ≠ '+' ∧ d ≠ '-' := by
      rcases mem_getLast?_expandPercents a d (by simp [hinit]) with hlast | rfl
      · exact ⟨ha.typable d (List.mem_of_getLast? hlast), hend d hlast⟩
      · decide
    rw [hinit] at h
    obtain ⟨before, token, rfl, hsign⟩ := exists_last_of_hasTokens hd.1 hd.2.1 hd.2.2 h
    rw [List.map_append, List.map_singleton]
    exact Percent.fewSigns_concat Nat.one_pos hsign

/-- At most one sign stands at the end of what is typed, percentages being written. -/
theorem fewSigns_of_typed (ha : Typed a) (h : HasTokens (expandPercents a) ts) :
    FewSigns 2 (ts.map .token) := by
  by_cases hend : ∀ c ∈ a.getLast?, c ≠ '+' ∧ c ≠ '-'
  · exact (fewSigns_of_no_sign ha hend h).mono (by decide)
  · -- no operator stands before the sign, so there is no other sign before it
    obtain ⟨c, hc, hsign⟩ : ∃ c ∈ a.getLast?, c = '+' ∨ c = '-' := by
      simpa [or_iff_not_imp_left] using hend
    obtain ⟨front, rfl⟩ := List.getLast?_eq_some_iff.1 hc
    have hop : isOperator c = true ∧ '%' ∉ [c] ∧ ∃ token, Token.ofSymbol? c = some token := by
      rcases hsign with rfl | rfl <;> exact ⟨rfl, by decide, _, rfl⟩
    obtain ⟨hop, hpercent, token, htoken⟩ := hop
    have hfront : ∀ d ∈ front.getLast?, d ≠ '+' ∧ d ≠ '-' := by
      intro d hd
      have hnot := ha.isOperator_eq_false hop d hd
      constructor <;> rintro rfl <;> cases hnot
    rw [expandPercents_append_of_notMem hpercent] at h
    obtain ⟨before, hbefore, rfl⟩ := (hasTokens_concat_symbol htoken).1 h
    rw [List.map_append, List.map_singleton]
    exact (fewSigns_of_no_sign ha.of_append hfront hbefore).concat

/-- A literal after what is typed is a token of its own, unless a digit or a point comes before. -/
theorem hasTokens_append_literal (ha : Typed a) (hend : ∀ c ∈ a.getLast?, ¬c.isDigit ∧ c ≠ '.')
    (hw : IsLiteral w) (hq : value? w = some q) :
    HasTokens (expandPercents a ++ w) ts ↔
      ∃ before, HasTokens (expandPercents a) before ∧ ts = before ++ [.number q] := by
  have hnumeral := isNumeral_of_isLiteral hw
  rcases List.eq_nil_or_concat (expandPercents a) with hnil | ⟨init, d, hinit⟩
  · rw [hnil, List.nil_append, hasTokens_numeral hnumeral hq]
    constructor
    · rintro rfl
      exact ⟨[], hasTokens_nil, rfl⟩
    · rintro ⟨before, hbefore, rfl⟩
      rw [hbefore.unique hasTokens_nil]
      rfl
  · rw [List.concat_eq_append] at hinit
    have hd : ∃ token, Token.ofSymbol? d = some token := by
      rcases mem_getLast?_expandPercents a d (by simp [hinit]) with hlast | rfl
      · obtain ⟨hdigit, hpoint⟩ := hend d hlast
        exact exists_ofSymbol? (ha.typable d (List.mem_of_getLast? hlast)) hdigit hpoint
      · exact ⟨_, rfl⟩
    obtain ⟨token, htoken⟩ := hd
    rw [hinit, hasTokens_concat_numeral htoken hnumeral hq]

/-! ### The text with the sign -/

theorem hasTokens_percentage (hu : IsLiteral u) (hv : value? u = some v) :
    HasTokens (t ++ ((Part.literal u).written ++ [])) ts ↔
      ∃ before, HasTokens t before ∧ ts = before ++ (Symbol.literal v).tokens := by
  rw [Percent.hasTokens_literal hu hv]
  constructor
  · rintro ⟨before, after, hbefore, hafter, rfl⟩
    rw [hafter.unique hasTokens_nil, List.append_nil]
    exact ⟨before, hbefore, rfl⟩
  · rintro ⟨before, hbefore, rfl⟩
    exact ⟨before, [], hbefore, hasTokens_nil, by rw [List.append_nil]⟩

theorem isBlankText_append_of_head (hw : w = c :: t) (hc : Text.isBlank c = false) :
    Text.isBlankText (a ++ w) = false := by
  rw [hw, Text.isBlankText, List.all_append, List.all_cons, hc, Bool.false_and, Bool.and_false]

theorem sanitize_percentage (ha : ∀ c ∈ a, isAllowed c = true) (hu : IsLiteral u)
    (hlongest : IsLongestEnd a u) :
    sanitize (a ++ u ++ ['%']) = .ok (expandPercents a ++ ((Part.literal u).written ++ [])) := by
  have hallowed : ∀ c ∈ a ++ u ++ ['%'], isAllowed c = true :=
    List.forall_mem_append.2
      ⟨List.forall_mem_append.2 ⟨ha, hu.isAllowed⟩, List.forall_mem_singleton.2 rfl⟩
  rw [sanitize_eq_ok hallowed, List.append_assoc, expandPercents_append (hlongest.apart hu),
    expandPercents_percentage hu, expandPercents]

theorem isBlankText_percentage : Text.isBlankText (t ++ ((Part.literal u).written ++ [])) = false :=
  isBlankText_append_of_head rfl (by decide)

/-! ### Agreement -/

/-- A hundredth that is written as a literal has the same outcome as the percent sign. -/
theorem toOption_evaluate_hundredth (ha : Typed (a ++ u)) (hpoint : a.getLast? ≠ some '.')
    (hu : IsLiteral u) (hlongest : IsLongestEnd a u) (hv : value? u = some v)
    (hq : Positional (v / 100.0)) :
    (evaluate (a ++ plain (v / 100.0))).toOption = (evaluate (a ++ u ++ ['%'])).toOption := by
  have hend : ∀ c ∈ a.getLast?, ¬c.isDigit ∧ c ≠ '.' := by
    intro c hc
    obtain ⟨front, rfl⟩ := List.getLast?_eq_some_iff.1 hc
    refine ⟨hlongest.not_isDigit hu, ?_⟩
    rintro rfl
    exact hpoint hc
  obtain ⟨hw, hvalue⟩ := plain_spec hq (isNegative_hundredth hu hv)
  have hallowed : ∀ c ∈ a, isAllowed c = true := fun c hc =>
    isAllowed_of_isTypable (ha.of_append.typable c hc)
  have hsanitize : sanitize (a ++ plain (v / 100.0)) =
      .ok (expandPercents a ++ plain (v / 100.0)) := by
    rw [sanitize_eq_ok (List.forall_mem_append.2 ⟨hallowed, hw.isAllowed⟩),
      expandPercents_append_of_notMem hw.percent_notMem]
  have hblank : Text.isBlankText (expandPercents a ++ plain (v / 100.0)) = false := by
    obtain ⟨c, t, ht, hc⟩ := hw.exists_cons
    exact isBlankText_append_of_head ht (Lexeme.isBlank_of_isDigit (by simp [hc]))
  refine Evaluation.toOption_evaluate_congr hsanitize (sanitize_percentage hallowed hu hlongest)
    hblank isBlankText_percentage fun x => ?_
  rw [Expr.map_value_parse_eq_ok_iff, Expr.map_value_parse_eq_ok_iff]
  simp only [hasTokens_append_literal ha.of_append hend hw hvalue, hasTokens_percentage hu hv]
  constructor
  · rintro ⟨_, ⟨before, hbefore, rfl⟩, he⟩
    have hfew := (fewSigns_of_typed ha.of_append hbefore).mono (show 2 ≤ Expr.maxDepth by decide)
    exact ⟨_, ⟨before, hbefore, rfl⟩, (Percent.exists_derives_quotient_iff hfew).2 he⟩
  · rintro ⟨_, ⟨before, hbefore, rfl⟩, he⟩
    have hfew := (fewSigns_of_typed ha.of_append hbefore).mono (show 2 ≤ Expr.maxDepth by decide)
    exact ⟨_, ⟨before, hbefore, rfl⟩, (Percent.exists_derives_quotient_iff hfew).1 he⟩

/-- A literal that follows a point with no digit before it makes no percentage. -/
theorem toOption_evaluate_after_point (ha : Typed (front ++ ['.'] ++ u)) (hu : IsLiteral u)
    (hlongest : IsLongestEnd (front ++ ['.']) u) (hv : value? u = some v) :
    (evaluate (front ++ ['.'] ++ u ++ ['%'])).toOption = none := by
  -- the literal has no point of its own
  have hcount : ('.' :: u).count '.' ≤ 1 := by
    refine ha.points front ('.' :: u) [] (by simp) fun c hc => ?_
    rcases List.mem_cons.1 hc with rfl | hc
    · rfl
    · rcases hu.forall_mem c hc with hdigit | rfl
      · exact isOperator_of_isDigit hdigit
      · rfl
  have hnone : '.' ∉ u := by
    rw [List.count_cons_self] at hcount
    exact List.count_eq_zero.1 (by omega)
  have hdigits : ∀ c ∈ u, c.isDigit := fun c hc =>
    (hu.forall_mem c hc).resolve_right fun heq => hnone (heq ▸ hc)
  have hfront := hlongest.not_isDigit_of_point hu.ne_nil hdigits
  have hlast : ∀ c ∈ (expandPercents front).getLast?, ¬c.isDigit := by
    intro c hc
    rcases mem_getLast?_expandPercents front c hc with hc | rfl
    · exact hfront c hc
    · decide
  have hpoint : expandPercents (front ++ ['.']) = expandPercents front ++ ['.'] :=
    expandPercents_append_of_notMem (by decide)
  have hallowed : ∀ c ∈ front ++ ['.'], isAllowed c = true := fun c hc =>
    isAllowed_of_isTypable (ha.of_append.typable c hc)
  refine Evaluation.toOption_evaluate_eq_none (sanitize_percentage hallowed hu hlongest)
    isBlankText_percentage fun x hx => ?_
  obtain ⟨_, htokens, -⟩ := Expr.map_value_parse_eq_ok_iff.1 hx
  obtain ⟨before, hbefore, -⟩ := (hasTokens_percentage hu hv).1 htokens
  rw [hpoint] at hbefore
  exact not_hasTokens_point hlast hbefore

/-- A negative percentage that is worth nothing has the value zero. -/
theorem evaluate_minus_of_zero (hu : IsLiteral u) (hv : value? u = some v)
    (hzero : (v / 100.0 == 0.0) = true) : evaluate (['-'] ++ u ++ ['%']) = .ok 0.0 := by
  have hlongest : IsLongestEnd ['-'] u := by
    intro front more hmore hliteral
    rcases List.append_eq_singleton_iff.1 hmore.symm with ⟨-, rfl⟩ | ⟨-, rfl⟩
    · exact absurd (by simp) hliteral.minus_notMem
    · rfl
  have hsanitize := sanitize_percentage (List.forall_mem_singleton.2 rfl) hu hlongest
  have htokens : HasTokens (expandPercents ['-'] ++ ((Part.literal u).written ++ []))
      ([.minus] ++ (Symbol.literal v).tokens) := by
    have hminus : Token.ofSymbol? '-' = some .minus := rfl
    rw [(noPercentages_of_notMem (by decide)).expandPercents_eq, hasTokens_percentage hu hv]
    exact ⟨[.minus], (hasTokens_concat_symbol hminus).2 ⟨[], hasTokens_nil, rfl⟩, rfl⟩
  have hderives : Percent.Derives .sum Expr.maxDepth [.token .minus, .literal v]
      (.negative (.number (v / 100.0))) :=
    .ofProduct (.ofFactor (.negative .literal))
  obtain ⟨e, he, hvalue⟩ := Percent.exists_derives_expand_iff.2 ⟨_, hderives, rfl⟩
  have hquotient : v / 100.0 = 0.0 := by
    have hfinite : (v / 100.0).isFinite = true := Positional.isFinite (.inl hzero)
    exact eq_zero_of_units_eq_zero hfinite ((beq_zero_iff hfinite).1 hzero)
      (isNegative_hundredth hu hv)
  have hworth := Expr.map_value_parse_eq_ok_iff.2 ⟨_, htokens, e, he, hvalue⟩
  rw [Evaluation.evaluate_of_value hsanitize isBlankText_percentage hworth, Expr.value, Expr.value,
    hquotient]
  decide +kernel

/-- The percent key and the percent sign agree on a text that ends in a literal, but for a literal
after a point, for a hundredth that cannot be written as a literal, and for a hundredth that is
nothing after a minus sign that is not the first character: there the key takes the sign away. -/
theorem evaluate_percent_of_typed {k : Keypad} (hk : k.expression = a ++ u) (ht : Typed (a ++ u))
    (hu : IsLiteral u) (hlongest : IsLongestEnd a u) (hv : value? u = some v) :
    (Positional (v / 100.0) → a.getLast? ≠ some '.' →
      a = ['-'] ∨ a.getLast? ≠ some '-' ∨ (v / 100.0 == 0.0) = false →
      (evaluate k.percent.expression).toOption = (evaluate (a ++ u ++ ['%'])).toOption) ∧
    (∀ front, a = front ++ ['-'] → (v / 100.0 == 0.0) = true →
      k.percent.expression = front ++ ['0']) ∧
    (a.getLast? = some '.' → (evaluate (a ++ u ++ ['%'])).toOption = none) ∧
    (¬Positional (v / 100.0) → (evaluate k.percent.expression).toOption = none) := by
  obtain ⟨hzero, hwritten, hletter⟩ := percent_spec ht.typable hu hlongest hv hk
  refine ⟨fun hpositional hpoint hcase => ?_, hzero, fun hpoint => ?_, fun hnot => ?_⟩
  · by_cases hkept : a.getLast? ≠ some '-' ∨ (v / 100.0 == 0.0) = false
    · rw [hwritten hpositional hkept]
      exact toOption_evaluate_hundredth ht hpoint hu hlongest hv hpositional
    · obtain rfl := hcase.resolve_right hkept
      have hnothing : (v / 100.0 == 0.0) = true := by
        simpa using fun h => hkept (.inr h)
      have hevaluate : evaluate ['0'] = .ok 0.0 := by decide +kernel
      rw [hzero [] rfl hnothing, evaluate_minus_of_zero hu hv hnothing, List.nil_append, hevaluate]
  · obtain ⟨front, rfl⟩ := List.getLast?_eq_some_iff.1 hpoint
    exact toOption_evaluate_after_point ht hu hlongest hv
  · obtain ⟨c, hc⟩ := Option.ne_none_iff_exists'.1 (hletter hnot)
    rw [Evaluation.evaluate_of_sanitize_error (sanitize_eq_error_iff.2 ⟨c, hc, rfl⟩)]
    rfl

end KeypadCalc.Keypad

namespace KeypadCalc.Session

open Decimal.Numeral (value?)
open Evaluation (evaluate)
open NumberText (Positional)
open Sanitizer (IsLiteral IsLongestEnd)

/-- The percent key against the percent sign after any text that is typed and ends in a digit: both
have the same outcome unless the last literal stands after a point, or a hundredth of it has to be
written with a power of ten, or it is worth nothing and has a minus sign before it that is not the
first character. -/
theorem evaluate_press_percent (history : History) (records : Bool) (cs : Text) (now : Int64) :
    let s := cs.foldl input (new history records)
    let typed := s.keypad.expression
    let pressed := (s.press now .percent).2.keypad.expression
    typed.getLast?.any Char.isDigit = true →
      ∃ a u v, typed = a ++ u ∧ IsLiteral u ∧ IsLongestEnd a u ∧ value? u = some v ∧
        (Positional (v / 100.0) → a.getLast? ≠ some '.' →
          a = ['-'] ∨ a.getLast? ≠ some '-' ∨ (v / 100.0 == 0.0) = false →
          (evaluate pressed).toOption = (evaluate (typed ++ ['%'])).toOption) ∧
        (∀ front, a = front ++ ['-'] → (v / 100.0 == 0.0) = true → pressed = front ++ ['0']) ∧
        (a.getLast? = some '.' → (evaluate (typed ++ ['%'])).toOption = none) ∧
        (¬Positional (v / 100.0) → (evaluate pressed).toOption = none) := by
  intro s typed pressed hdigit
  have htyped : Keypad.Typed typed := by
    have hs : s.keypad = cs.foldl Keypad.input (new history records).keypad :=
      keypad_foldl_input _ cs
    change Keypad.Typed s.keypad.expression
    rw [hs]
    exact Keypad.typed_nil.foldl_input cs
  have hpressed : pressed = s.keypad.percent.expression :=
    congrArg Keypad.expression (keypad_press s now .percent)
  obtain ⟨c, hc, hcdigit⟩ := (Option.any_eq_true _ _).1 hdigit
  obtain ⟨init, hinit⟩ := List.getLast?_eq_some_iff.1 hc
  obtain ⟨a, u, ht, hu, hlongest⟩ := Sanitizer.exists_isLongestEnd init hcdigit
  obtain ⟨v, hv⟩ := (Percent.isNumeral_of_isLiteral hu).value
  have hk : typed = a ++ u := hinit.trans ht
  rw [hpressed, hk]
  rw [hk] at htyped
  exact ⟨a, u, v, rfl, hu, hlongest, hv, Keypad.evaluate_percent_of_typed hk htyped hu hlongest hv⟩

/-- Minus an eighth comes of minus twelve and a half in both ways. -/
theorem evaluate_press_percent_of_negative :
    let s := ['-', '1', '2', '.', '5'].foldl input
      (new (.new (.memory []) History.defaultKey 1) true)
    let typed := s.keypad.expression
    let pressed := (s.press 0 .percent).2.keypad.expression
    typed.getLast?.any Char.isDigit = true ∧
      (evaluate pressed).toOption = (evaluate (typed ++ ['%'])).toOption := by
  intro s typed pressed
  have hdigit : typed.getLast?.any Char.isDigit = true := by decide +kernel
  refine ⟨hdigit, ?_⟩
  obtain ⟨a, u, v, ht, hu, hlongest, hv, hagree, -⟩ := evaluate_press_percent
    (.new (.memory []) History.defaultKey 1) true ['-', '1', '2', '.', '5'] 0 hdigit
  have htyped : typed = ['-', '1', '2', '.', '5'] := by decide +kernel
  have hliteral : IsLiteral ['1', '2', '.', '5'] :=
    Keypad.isLiteral_of_isUnsigned (List.all_eq_true.1 (by decide)) (by decide +kernel)
  replace ht := htyped.symm.trans ht
  cases a with
  | nil =>
    rw [List.nil_append] at ht
    rw [← ht] at hu
    exact absurd (by simp) hu.minus_notMem
  | cons d a =>
    rw [List.cons_append] at ht
    obtain ⟨rfl, hrest⟩ := List.cons_eq_cons.1 ht
    obtain rfl := hlongest ['-'] a rfl (hrest ▸ hliteral)
    obtain rfl : ['1', '2', '.', '5'] = u := hrest
    have hvalue : value? ['1', '2', '.', '5'] = some 12.5 := by decide +kernel
    obtain rfl : v = 12.5 := Option.some.inj (hv.symm.trans hvalue)
    exact hagree (by decide +kernel) (by decide) (.inl rfl)

/-- A hundredth of zero takes the minus sign before it away, and ten minus nothing becomes a
hundred. -/
theorem not_forall_evaluate_press_percent :
    ¬∀ (history : History) (records : Bool) (cs : Text) (now : Int64),
      let s := cs.foldl input (new history records)
      let typed := s.keypad.expression
      typed.getLast?.any Char.isDigit = true →
        (evaluate (s.press now .percent).2.keypad.expression).toOption =
          (evaluate (typed ++ ['%'])).toOption := by
  intro h
  have hagree := h (.new (.memory []) History.defaultKey 1) true ['1', '0', '-', '0'] 0
    (by decide +kernel)
  revert hagree
  decide +kernel

end KeypadCalc.Session
