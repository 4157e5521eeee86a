import KeypadCalc.Proofs.Keypad.Percent
import KeypadCalc.Proofs.Parsing.FirstError

/-! A percent sign after each spelling of a number. A numeral that has digits on both sides of its
point, or no point, is a literal to the sanitizer. Of the other two spellings the sign makes no
percentage, and the text is refused. Main statement: the evaluation of a numeral with a percent sign
after it. -/

namespace KeypadCalc.Percent

open Decimal Decimal.Numeral
open Evaluation (evaluate unrounded roundResult)
open KeypadCalc.Expr (parse_eq_error_iff parse_numeral)
open Keypad (hasTokens_percentage isBlankText_percentage sanitize_percentage)
open Sanitizer

variable {u ds fs : Text} {v : Float}

/-! ### Spellings -/

/-- A numeral is a literal, or its point is at its end or at its front. -/
theorem isLiteral_or_of_isNumeral (hu : IsNumeral u) :
    IsLiteral u ∨ (∃ ds, u = ds ++ ['.']) ∨ ∃ fs, u = '.' :: fs := by
  cases hu with
  | whole hne hd => exact .inl (.whole hne hd)
  | @point ds fs hd hf hne =>
    by_cases hds : ds = []
    · exact .inr (.inr ⟨fs, by rw [hds]; rfl⟩)
    · by_cases hfs : fs = []
      · exact .inr (.inl ⟨ds, by rw [hfs]⟩)
      · exact .inl (.point hds hfs hd hf)

/-- Digits come after a point at the front of a numeral. -/
theorem isNumeral_cons_point (h : IsNumeral ('.' :: fs)) : fs ≠ [] ∧ ∀ c ∈ fs, c.isDigit := by
  generalize hw : '.' :: fs = w at h
  cases h with
  | whole _ hd => exact absurd (hd '.' (by simp [← hw])) not_isDigit_point
  | @point ds fs' hd hf hne =>
    cases ds with
    | nil =>
      obtain ⟨-, rfl⟩ := List.cons_eq_cons.1 hw
      exact ⟨hne.resolve_left (not_not_intro rfl), hf⟩
    | cons d ds =>
      obtain ⟨rfl, -⟩ := List.cons_eq_cons.1 hw
      exact absurd (hd '.' (by simp)) not_isDigit_point

theorem not_isLiteral_cons_point : ¬IsLiteral ('.' :: fs) := by
  intro h
  obtain ⟨c, t, heq, hc⟩ := h.exists_cons
  obtain ⟨rfl, -⟩ := List.cons_eq_cons.1 heq
  exact not_isDigit_point hc

/-! ### A percent sign after a numeral -/

theorem isAllowed_of_isNumeral (hu : IsNumeral u) : ∀ c ∈ u ++ ['%'], isAllowed c = true := by
  refine List.forall_mem_append.2 ⟨fun c hc => ?_, List.forall_mem_singleton.2 rfl⟩
  have hmem := hu.forall_mem c hc
  rw [Bool.or_eq_true, beq_iff_eq] at hmem
  rcases hmem with hdigit | rfl
  · exact isAllowed_of_isDigit hdigit
  · rfl

theorem noPercentages_append_point (hu : IsNumeral (ds ++ ['.'])) :
    NoPercentages (ds ++ ['.'] ++ ['%']) := by
  have hlast : NoPercentages ['%'] := by
    intro front c rest h
    have hlength := congrArg List.length h
    simp only [List.length_append, List.length_cons, List.length_nil] at hlength
    omega
  refine (noPercentages_of_notMem (hu.notMem (by decide))).append hlast fun c hc hdigit => ?_
  rw [List.getLast?_concat] at hc
  obtain rfl := Option.some.inj hc
  exact absurd hdigit not_isDigit_point

/-- A literal with a percent sign after it is worth a hundredth of it. -/
theorem sanitize_literal (hu : IsLiteral u) (hv : value? u = some v) :
    ∃ s, sanitize (u ++ ['%']) = .ok s ∧ Text.isBlankText s = false ∧
      (Expr.parse s).map Expr.value = .ok (v / 100.0) := by
  have hlongest : IsLongestEnd [] u := fun front more h _ => (List.append_eq_nil_iff.1 h.symm).2
  refine ⟨_, sanitize_percentage (a := []) (by simp) hu hlongest, isBlankText_percentage, ?_⟩
  have hderives : Derives .sum Expr.maxDepth [.literal v] (.number (v / 100.0)) :=
    .ofProduct (.ofFactor .literal)
  obtain ⟨e, he, hvalue⟩ := exists_derives_expand_iff.2 ⟨_, hderives, rfl⟩
  refine Expr.map_value_parse_eq_ok_iff.2 ⟨_, ?_, e, he, hvalue⟩
  rw [expandPercents]
  exact (hasTokens_percentage hu hv).2 ⟨[], hasTokens_nil, rfl⟩

/-- A percent sign after a point makes no percentage, and nothing follows it as an operator. -/
theorem unrounded_concat_point (hu : IsNumeral (ds ++ ['.'])) :
    unrounded (ds ++ ['.'] ++ ['%']) =
      .error (.malformed ⟨(ds ++ ['.']).length + 1, .unexpectedEnd⟩) := by
  have hpercent : Token.ofSymbol? '%' = some .percent := rfl
  obtain ⟨v, hv⟩ := hu.value
  have hsanitize := sanitize_eq_ok (isAllowed_of_isNumeral hu)
  rw [NoPercentages.expandPercents_eq (noPercentages_append_point hu)] at hsanitize
  obtain ⟨ls, hls, htokens⟩ := (hasTokens_concat_symbol hpercent).2
    ⟨_, (hasTokens_numeral hu hv).2 rfl, rfl⟩
  have hblank : Text.isBlankText (ds ++ ['.'] ++ ['%']) = false :=
    Keypad.isBlankText_append_of_head rfl (by decide)
  refine Evaluation.unrounded_of_parse_error hsanitize hblank ((parse_eq_error_iff hls).2 ?_)
  refine ⟨ls, [], .before [], by simp, ?_, rfl, ?_⟩
  · rw [htokens]
    rfl
  · simp [Expr.start]

/-- The literal after a point at the front makes a percentage, and the point is left alone. -/
theorem unrounded_cons_point (hu : IsNumeral ('.' :: fs)) :
    unrounded ('.' :: fs ++ ['%']) = .error (.malformed ⟨0, .lonePoint⟩) := by
  obtain ⟨hne, hdigits⟩ := isNumeral_cons_point hu
  have hlongest : IsLongestEnd ['.'] fs := by
    intro front more hmore hliteral
    rcases List.append_eq_singleton_iff.1 hmore.symm with ⟨-, rfl⟩ | ⟨-, rfl⟩
    · exact absurd hliteral not_isLiteral_cons_point
    · rfl
  have hsanitize :=
    sanitize_percentage (List.forall_mem_singleton.2 rfl) (.whole hne hdigits) hlongest
  rw [(noPercentages_of_notMem (by decide)).expandPercents_eq] at hsanitize
  refine Evaluation.unrounded_of_parse_error hsanitize isBlankText_percentage ?_
  rw [Expr.parse, List.singleton_append, Part.written, List.cons_append, List.cons_append,
    Lexeme.ofText_cons_point (by simp)]
  rfl

/-- A percent sign after a numeral is honoured exactly if the numeral has digits on both sides of
its point or has none. The value is then a hundredth of the numeral, which is rounded as any other.
If the numeral ends in its point, the text with the sign ends too early; if it begins with it, the
point is refused. -/
theorem unrounded_percent_iff {u : Text} {v : Float} (hu : IsNumeral u)
    (hv : (Expr.parse u).map Expr.value = .ok v) (hfinite : (v / 100.0).isFinite = true) :
    (unrounded (u ++ ['%']) = .ok (some (v / 100.0)) ↔ IsLiteral u) ∧
      (IsLiteral u → evaluate (u ++ ['%']) =
        if (roundResult (v / 100.0)).isFinite then .ok (roundResult (v / 100.0))
        else .error .nonFinite) ∧
      (∀ ds, u = ds ++ ['.'] →
        unrounded (u ++ ['%']) = .error (.malformed ⟨u.length + 1, .unexpectedEnd⟩)) ∧
      ∀ fs, u = '.' :: fs → unrounded (u ++ ['%']) = .error (.malformed ⟨0, .lonePoint⟩) := by
  obtain ⟨w, hw⟩ := hu.value
  obtain rfl : w = v := by
    rw [parse_numeral hu hw] at hv
    exact Except.ok.inj hv
  refine ⟨⟨fun h => ?_, fun hliteral => ?_⟩, fun hliteral => ?_, ?_, ?_⟩
  · rcases isLiteral_or_of_isNumeral hu with hliteral | ⟨ds, rfl⟩ | ⟨fs, rfl⟩
    · exact hliteral
    · rw [unrounded_concat_point hu] at h
      cases h
    · rw [unrounded_cons_point hu] at h
      cases h
  · obtain ⟨s, hs, hblank, hworth⟩ := sanitize_literal hliteral hw
    exact Evaluation.unrounded_of_value hs hblank hworth hfinite
  · obtain ⟨s, hs, hblank, hworth⟩ := sanitize_literal hliteral hw
    rw [Evaluation.evaluate_of_value hs hblank hworth, Evaluation.outcome, hfinite, Bool.true_and]
  · rintro ds rfl
    exact unrounded_concat_point hu
  · rintro fs rfl
    exact unrounded_cons_point hu

theorem unrounded_percent_iff_of_mixed :
    let u := ['1', '2', '.', '5']
    IsNumeral u ∧ (Expr.parse u).map Expr.value = .ok 12.5 ∧
      unrounded (u ++ ['%']) = .ok (some 0.125) ∧ evaluate (u ++ ['%']) = .ok 0.125 := by
  intro u
  have hliteral : IsLiteral (['1', '2'] ++ '.' :: ['5']) :=
    .point (by decide) (by decide) (List.all_eq_true.1 rfl) (List.all_eq_true.1 rfl)
  have hu := isNumeral_of_isLiteral hliteral
  have hv : (Expr.parse u).map Expr.value = .ok 12.5 := by decide +kernel
  have heighth : (12.5 : Float) / 100.0 = 0.125 := by decide +kernel
  obtain ⟨hunrounded, hevaluate, -⟩ := unrounded_percent_iff hu hv (by decide +kernel)
  rw [heighth] at hunrounded hevaluate
  refine ⟨hu, hv, hunrounded.2 hliteral, (hevaluate hliteral).trans ?_⟩
  decide +kernel

/-- The evaluator accepts a half without its zero, but no percent sign after it. -/
theorem not_forall_unrounded_percent :
    ¬∀ (u : Text) (v : Float), IsNumeral u → (Expr.parse u).map Expr.value = .ok v →
      (v / 100.0).isFinite = true → unrounded (u ++ ['%']) = .ok (some (v / 100.0)) := by
  intro h
  have hu : IsNumeral ['.', '5'] := by
    refine .point (List.forall_mem_nil _) (List.all_eq_true.1 ?_) (.inr (List.cons_ne_nil _ _))
    rfl
  have hhonoured := h _ 0.5 hu (by decide +kernel) (by decide +kernel)
  rw [unrounded_cons_point hu] at hhonoured
  cases hhonoured

end KeypadCalc.Percent
