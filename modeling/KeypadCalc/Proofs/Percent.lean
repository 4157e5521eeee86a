import KeypadCalc.Proofs.Percent.Grammar
import KeypadCalc.Proofs.Sanitizing
import KeypadCalc.Proofs.Tokens

/-! What percent signs mean. A text is read with each percentage as one symbol of the grammar with
percent literals. Main statement: the text that the sanitizer makes of it is evaluated exactly to
the values that this grammar gives the symbols. -/

namespace KeypadCalc.Percent

open Decimal.Numeral (IsNumeral value?)
open Sanitizer

/-- The parts of a text as symbols: each literal that a percent sign follows is one symbol, and what
stands between is divided into tokens as usual. -/
inductive Reads : List Part → List Symbol → Prop
  | nil : Reads [] []
  | between {t : Text} {ts : List Token} {parts : List Part} {ss : List Symbol} :
      HasTokens t ts → Reads parts ss → Reads (.between t :: parts) (ts.map .token ++ ss)
  | literal {u : Text} {v : Float} {parts : List Part} {ss : List Symbol} :
      value? u = some v → Reads parts ss → Reads (.literal u :: parts) (.literal v :: ss)

variable {t u w : Text} {v : Float} {ts : List Token} {parts : List Part} {ss : List Symbol}

theorem isNumeral_of_isLiteral (h : IsLiteral u) : IsNumeral u := by
  cases h with
  | whole hne hd => exact .whole hne hd
  | point hne _ hd hf => exact .point hd hf (.inl hne)

/-! ### Tokens of percentages -/

/-- A percentage is written with the tokens of its literal, whatever stands around it. -/
theorem hasTokens_literal (hu : IsLiteral u) (hv : value? u = some v) :
    HasTokens (t ++ ((Part.literal u).written ++ w)) ts ↔
      ∃ before after, HasTokens t before ∧ HasTokens w after ∧
        ts = before ++ ((Symbol.literal v).tokens ++ after) := by
  have hwritten : (Part.literal u).written ++ w =
      '(' :: (u ++ '/' :: (['1', '0', '0'] ++ ')' :: w)) := by simp [Part.written]
  have hhundred : ∀ us, HasTokens ['1', '0', '0'] us ↔ us = [.number 100.0] := fun us =>
    hasTokens_numeral (.whole (by decide) (List.all_eq_true.1 rfl)) (by decide +kernel)
  have hopen : Token.ofSymbol? '(' = some .leftParen := rfl
  have hdivide : Token.ofSymbol? '/' = some .divide := rfl
  have hclose : Token.ofSymbol? ')' = some .rightParen := rfl
  simp only [hwritten, hasTokens_append_symbol hopen, hasTokens_append_symbol hdivide,
    hasTokens_append_symbol hclose,
    hasTokens_numeral (isNumeral_of_isLiteral hu) hv, hhundred, Symbol.tokens]
  constructor
  · rintro ⟨before, _, hbefore, ⟨_, _, rfl, ⟨_, after, rfl, hafter, rfl⟩, rfl⟩, rfl⟩
    exact ⟨before, after, hbefore, hafter, rfl⟩
  · rintro ⟨before, after, hbefore, hafter, rfl⟩
    exact ⟨before, _, hbefore, ⟨_, _, rfl, ⟨_, after, rfl, hafter, rfl⟩, rfl⟩, rfl⟩

theorem reads_nil_iff : Reads [] ss ↔ ss = [] :=
  ⟨fun h => by cases h; rfl, fun h => h ▸ .nil⟩

theorem reads_between_iff :
    Reads (.between t :: parts) ss ↔
      ∃ before after, HasTokens t before ∧ Reads parts after ∧ ss = before.map .token ++ after := by
  constructor
  · intro h
    cases h with
    | between hbefore hafter => exact ⟨_, _, hbefore, hafter, rfl⟩
  · rintro ⟨before, after, hbefore, hafter, rfl⟩
    exact .between hbefore hafter

theorem reads_literal_iff (hv : value? u = some v) :
    Reads (.literal u :: parts) ss ↔ ∃ after, Reads parts after ∧ ss = .literal v :: after := by
  constructor
  · intro h
    cases h with
    | literal hw hafter =>
      obtain rfl := Option.some.inj (hv.symm.trans hw)
      exact ⟨_, hafter, rfl⟩
  · rintro ⟨after, hafter, rfl⟩
    exact .literal hv hafter

/-- The text that is written for the parts of a text has the tokens of the symbols that these are
read as. -/
theorem hasTokens_written_iff (h : Divides t parts) :
    HasTokens (parts.map Part.written).flatten ts ↔ ∃ ss, Reads parts ss ∧ expand ss = ts := by
  induction h generalizing ts with
  | @last t _ =>
    simp only [List.map_cons, List.map_nil, List.flatten_cons, List.flatten_nil, List.append_nil,
      Part.written, reads_between_iff, reads_nil_iff]
    constructor
    · intro h
      exact ⟨ts.map .token, ⟨ts, [], h, rfl, by simp⟩, expand_map_token ts⟩
    · rintro ⟨_, ⟨before, _, hbefore, rfl, rfl⟩, rfl⟩
      simpa using hbefore
  | @percentage t u rest parts _ hu _ _ ih =>
    obtain ⟨v, hv⟩ := (isNumeral_of_isLiteral hu).value
    simp only [List.map_cons, List.flatten_cons, hasTokens_literal hu hv, ih, reads_between_iff,
      reads_literal_iff hv]
    constructor
    · rintro ⟨before, _, hbefore, ⟨ss, hss, rfl⟩, rfl⟩
      exact ⟨_, ⟨before, _, hbefore, ⟨ss, hss, rfl⟩, rfl⟩, by simp [Symbol.tokens]⟩
    · rintro ⟨_, ⟨before, _, hbefore, ⟨ss, hss, rfl⟩, rfl⟩, rfl⟩
      exact ⟨before, _, hbefore, ⟨ss, hss, rfl⟩, by simp [Symbol.tokens]⟩

/-! ### Whole texts -/

/-- A text of admitted characters is cut at its percentages in one way. What the sanitizer makes of
it has exactly the values of the expressions that the grammar with percent literals derives from its
parts, no number standing under more than 256 signs and parentheses, nor a percentage under more
than 255. -/
theorem value_sanitize_eq_ok_iff (t : Text) (h : ∀ c ∈ t, isAllowed c = true) :
    ∃ s parts, sanitize t = .ok s ∧ Divides t parts ∧
      (∀ parts', Divides t parts' → parts' = parts) ∧
      ∀ v, (Expr.parse s).map Expr.value = .ok v ↔
        ∃ ss e, Reads parts ss ∧ Derives .sum 256 ss e ∧ e.value = v := by
  obtain ⟨parts, hparts⟩ := exists_divides t
  refine ⟨_, parts, sanitize_eq_ok h, hparts, fun parts' h' => h'.unique hparts, fun v => ?_⟩
  rw [Expr.map_value_parse_eq_ok_iff, hparts.expandPercents_eq]
  simp only [hasTokens_written_iff hparts]
  constructor
  · rintro ⟨_, ⟨ss, hss, rfl⟩, he⟩
    obtain ⟨e, he⟩ := exists_derives_expand_iff.1 he
    exact ⟨ss, e, hss, he⟩
  · rintro ⟨ss, e, hss, he⟩
    exact ⟨_, ⟨ss, hss, rfl⟩, exists_derives_expand_iff.2 ⟨e, he⟩⟩

/-- The second percent sign follows no digit, so that it stands for a remainder. -/
theorem value_sanitize_eq_ok_iff_of_remainder :
    let t := "(1.5+50%*-8)%200.0%".toList
    (∀ c ∈ t, isAllowed c = true) ∧
      ∃ parts ss e, Divides t parts ∧ Reads parts ss ∧ Derives .sum 256 ss e ∧
        e.value = -0.5 := by
  intro t
  have hallowed : ∀ c ∈ t, isAllowed c = true := List.all_eq_true.1 (by decide)
  have hvalue : (sanitize t).toOption.map (fun s => (Expr.parse s).map Expr.value) =
      some (.ok (-0.5)) := by decide +kernel
  obtain ⟨s, parts, hs, hparts, -, hiff⟩ := value_sanitize_eq_ok_iff t hallowed
  rw [hs] at hvalue
  obtain ⟨ss, e, hss, he, hworth⟩ := (hiff _).1 (Option.some.inj hvalue)
  exact ⟨hallowed, parts, ss, e, hparts, hss, he, hworth⟩

end KeypadCalc.Percent
