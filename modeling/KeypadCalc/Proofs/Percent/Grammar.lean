import KeypadCalc.Proofs.Parsing
import Mathlib.Tactic.IntervalCases

/-! The grammar with percent literals: besides a number, a literal with a percent sign after it may
stand as a factor. It is worth a hundredth of the literal and counts as one level of nesting.
Writing such literals as divisions in parentheses keeps what can be derived, and its value. -/

namespace KeypadCalc.Percent

/-- A token, or a literal of the given value with a percent sign after it. -/
inductive Symbol
  | token (t : Token)
  | literal (v : Float)

/-- The derivations of the grammar with percent literals. -/
inductive Derives : Level → Nat → List Symbol → Expr → Prop
  | number {budget v} : Derives .factor budget [.token (.number v)] (.number v)
  | literal {budget v} : Derives .factor (budget + 1) [.literal v] (.number (v / 100.0))
  | positive {budget ss e} :
      Derives .factor budget ss e →
        Derives .factor (budget + 1) (.token .plus :: ss) (.positive e)
  | negative {budget ss e} :
      Derives .factor budget ss e →
        Derives .factor (budget + 1) (.token .minus :: ss) (.negative e)
  | paren {budget ss e} :
      Derives .sum budget ss e →
        Derives .factor (budget + 1) (.token .leftParen :: ss ++ [.token .rightParen]) e
  | ofFactor {budget ss e} : Derives .factor budget ss e → Derives .product budget ss e
  | product {budget ss us t op e f} :
      Derives .product budget ss e → t.multiplicative? = some op → Derives .factor budget us f →
        Derives .product budget (ss ++ .token t :: us) (.binary op e f)
  | ofProduct {budget ss e} : Derives .product budget ss e → Derives .sum budget ss e
  | sum {budget ss us t op e f} :
      Derives .sum budget ss e → t.additive? = some op → Derives .product budget us f →
        Derives .sum budget (ss ++ .token t :: us) (.binary op e f)

/-- A percent literal as a division in parentheses. -/
def Symbol.tokens : Symbol → List Token
  | token t => [t]
  | literal v => [.leftParen, .number v, .divide, .number 100.0, .rightParen]

def expand (ss : List Symbol) : List Token := (ss.map Symbol.tokens).flatten

variable {level : Level} {budget : ℕ} {ss : List Symbol} {ts us : List Token} {t : Token}
  {e f : Expr} {v : Float}

@[simp] theorem expand_nil : expand [] = [] := rfl

@[simp] theorem expand_token_cons (t : Token) (ss : List Symbol) :
    expand (.token t :: ss) = t :: expand ss := rfl

@[simp] theorem expand_literal_cons (v : Float) (ss : List Symbol) :
    expand (.literal v :: ss) =
      .leftParen :: .number v :: .divide :: .number 100.0 :: .rightParen :: expand ss := rfl

@[simp] theorem expand_append (ss ss' : List Symbol) :
    expand (ss ++ ss') = expand ss ++ expand ss' := by
  simp [expand]

@[simp] theorem expand_map_token (ts : List Token) : expand (ts.map .token) = ts := by
  induction ts with
  | nil => rfl
  | cons t ts ih => rw [List.map_cons, expand_token_cons, ih]

/-! ### Balanced parentheses -/

/-- The number of parentheses that are opened and not closed. -/
def nesting (ts : List Token) : ℤ := ts.count .leftParen - ts.count .rightParen

@[simp] theorem nesting_append (ts us : List Token) :
    nesting (ts ++ us) = nesting ts + nesting us := by
  simp only [nesting, List.count_append]
  omega

theorem nesting_cons (t : Token) (ts : List Token) : nesting (t :: ts) = nesting [t] + nesting ts :=
  nesting_append [t] ts

/-- Every parenthesis that is opened is closed later, and every one that is closed was opened. -/
structure Balanced (ts : List Token) : Prop where
  closed : nesting ts = 0
  opened : ∀ front rest, ts = front ++ rest → 0 ≤ nesting front

theorem Balanced.append (h : Balanced ts) (h' : Balanced us) : Balanced (ts ++ us) where
  closed := by rw [nesting_append, h.closed, h'.closed, add_zero]
  opened := by
    intro front rest heq
    rcases List.append_eq_append_iff.1 heq with ⟨mid, rfl, hus⟩ | ⟨mid, hts, -⟩
    · rw [nesting_append, h.closed, zero_add]
      exact h'.opened mid rest hus
    · exact h.opened front mid hts

theorem balanced_singleton (h : nesting [t] = 0) : Balanced [t] where
  closed := h
  opened := by
    intro front rest heq
    rcases List.append_eq_singleton_iff.1 heq.symm with ⟨rfl, -⟩ | ⟨rfl, -⟩
    · exact le_rfl
    · exact h.ge

theorem Balanced.cons (ht : nesting [t] = 0) (h : Balanced ts) : Balanced (t :: ts) :=
  (balanced_singleton ht).append h

theorem Balanced.paren (h : Balanced ts) : Balanced (.leftParen :: ts ++ [.rightParen]) where
  closed := by
    rw [nesting_append, nesting_cons, h.closed]
    decide
  opened := by
    intro front rest heq
    rcases List.append_eq_append_iff.1 heq with ⟨mid, rfl, hlast⟩ | ⟨mid, hts, -⟩
    · have hmid : -1 ≤ nesting mid := by
        rcases List.append_eq_singleton_iff.1 hlast.symm with ⟨rfl, -⟩ | ⟨rfl, -⟩ <;> decide
      have hopen : nesting [Token.leftParen] = 1 := by decide
      rw [nesting_append, nesting_cons, h.closed]
      omega
    · cases front with
      | nil => decide
      | cons t front =>
        obtain ⟨rfl, hfront⟩ := List.cons_eq_cons.1 hts
        have := h.opened front mid hfront
        have hopen : nesting [Token.leftParen] = 1 := by decide
        rw [nesting_cons]
        omega

theorem nesting_of_operator {op : BinaryOp}
    (h : t.multiplicative? = some op ∨ t.additive? = some op) : nesting [t] = 0 := by
  cases t <;> simp [Token.multiplicative?, Token.additive?, nesting] at h ⊢

theorem nesting_number (v : Float) : nesting [.number v] = 0 := by simp [nesting]

/-- What the grammar derives is balanced at every level. -/
theorem balanced_of_derives (h : KeypadCalc.Derives level budget ts e) : Balanced ts := by
  induction h with
  | number => exact balanced_singleton (nesting_number _)
  | positive _ ih => exact ih.cons (by decide)
  | negative _ ih => exact ih.cons (by decide)
  | paren _ ih => exact ih.paren
  | ofFactor _ ih => exact ih
  | product _ hop _ ih ih' => exact ih.append (ih'.cons (nesting_of_operator (.inl hop)))
  | ofProduct _ ih => exact ih
  | sum _ hop _ ih ih' => exact ih.append (ih'.cons (nesting_of_operator (.inr hop)))

/-! ### Cutting an expansion -/

theorem expand_eq_nil (h : expand ss = []) : ss = [] := by
  cases ss with
  | nil => rfl
  | cons s ss => cases s <;> simp at h

theorem expand_eq_cons (ht : t ≠ .leftParen) (h : expand ss = t :: ts) :
    ∃ ss', ss = .token t :: ss' ∧ expand ss' = ts := by
  cases ss with
  | nil => simp at h
  | cons s ss =>
    cases s with
    | token u =>
      obtain ⟨rfl, hts⟩ := List.cons_eq_cons.1 h
      exact ⟨ss, rfl, hts⟩
    | literal v => exact absurd (List.cons_eq_cons.1 h).1.symm ht

/-- Inside the expansion of a literal one parenthesis is open. -/
theorem nesting_of_literal {front rest : List Token} (h : (Symbol.literal v).tokens = front ++ rest)
    (hfront : front ≠ []) (hrest : rest ≠ []) : nesting front = 1 := by
  have hcut : front = (Symbol.literal v).tokens.take front.length := by rw [h, List.take_left]
  have hlen : front.length < 5 := by
    have := congrArg List.length h
    have := List.length_pos_iff.2 hrest
    simp only [Symbol.tokens, List.length_cons, List.length_nil, List.length_append] at *
    omega
  have hpos := List.length_pos_iff.2 hfront
  rw [hcut]
  generalize front.length = n at hlen hpos
  interval_cases n <;> simp [Symbol.tokens, nesting]

/-- A cut after balanced tokens does not go through the expansion of a literal. -/
theorem exists_append_of_expand (hts : Balanced ts) (h : expand ss = ts ++ us) :
    ∃ ss₁ ss₂, ss = ss₁ ++ ss₂ ∧ expand ss₁ = ts ∧ expand ss₂ = us := by
  rcases List.flatten_eq_append_iff.1 h with
    ⟨as, bs, has, rfl, rfl⟩ | ⟨as, bs, c, cs, ds, has, hts', hus⟩
  · obtain ⟨ss₁, ss₂, rfl, rfl, rfl⟩ := List.map_eq_append_iff.1 has
    exact ⟨ss₁, ss₂, rfl, rfl, rfl⟩
  · obtain ⟨ss₁, rest, rfl, rfl, hrest⟩ := List.map_eq_append_iff.1 has
    obtain ⟨s, ss₂, rfl, hs, rfl⟩ := List.map_eq_cons_iff.1 hrest
    cases bs with
    | nil =>
      refine ⟨ss₁, s :: ss₂, rfl, ?_, ?_⟩
      · rw [hts', List.append_nil]
        rfl
      · rw [hus, expand, List.map_cons, List.flatten_cons, hs]
        rfl
    | cons b bs =>
      cases s with
      | token t => simp [Symbol.tokens] at hs
      | literal v =>
        have hopen := nesting_of_literal hs (by simp) (by simp)
        have hfront := hts.opened _ _ hts'
        have hclosed := hts.closed
        rw [hts', nesting_append, hopen] at hclosed
        omega

/-- Parentheses around balanced tokens are written as such, or are those of a literal. -/
theorem cases_of_expand_paren (hts : Balanced ts)
    (h : expand ss = .leftParen :: ts ++ [.rightParen]) :
    (∃ ss', ss = .token .leftParen :: ss' ++ [.token .rightParen] ∧ expand ss' = ts) ∨
      ∃ v, ss = [.literal v] ∧ ts = [.number v, .divide, .number 100.0] := by
  cases ss with
  | nil => simp at h
  | cons s ss =>
    cases s with
    | token t =>
      obtain ⟨rfl, hrest⟩ := List.cons_eq_cons.1 h
      obtain ⟨ss₁, ss₂, rfl, hts', hlast⟩ := exists_append_of_expand hts hrest
      obtain ⟨ss₃, rfl, hnil⟩ := expand_eq_cons (by decide) hlast
      rw [expand_eq_nil hnil]
      exact .inl ⟨ss₁, rfl, hts'⟩
    | literal v =>
      right
      obtain ⟨-, hrest⟩ := List.cons_eq_cons.1 h
      have hsplit : [Token.number v, .divide, .number 100.0] ++ (.rightParen :: expand ss) =
          ts ++ [.rightParen] := hrest
      rcases List.eq_nil_or_concat (expand ss) with hnil | ⟨init, last, hconcat⟩
      · rw [hnil] at hsplit
        exact ⟨v, by rw [expand_eq_nil hnil], (List.append_cancel_right hsplit).symm⟩
      · -- otherwise the parenthesis of the literal would be closed inside `ts`
        rw [hconcat, List.concat_eq_append, ← List.cons_append, ← List.append_assoc] at hsplit
        have hfront := (List.append_inj' hsplit rfl).1
        have hopened := hts.opened [.number v, .divide, .number 100.0, .rightParen] init hfront.symm
        have hclosed : nesting [.number v, .divide, .number 100.0, .rightParen] = -1 := by
          simp [nesting]
        omega

/-! ### Derivations -/

theorem derives_unique (h : KeypadCalc.Derives .sum budget ts e)
    (h' : KeypadCalc.Derives .sum budget ts f) : e = f := by
  -- both are what the reader takes off the tokens, at any positions
  obtain ⟨ls, rfl⟩ : ∃ ls : List Lexeme, ls.map Lexeme.token = ts :=
    ⟨ts.map (⟨0, ·⟩), by simp [Function.comp_def]⟩
  obtain ⟨_, he⟩ : Expr.Reads (Expr.sumOf (Expr.factor 0 budget)) ls e [] :=
    Expr.reads_sumOf_all_iff.2 h
  obtain ⟨_, hf⟩ := Expr.reads_sumOf_all_iff.2 h'
  simpa using he.symm.trans hf

theorem derives_quotient (budget : ℕ) (v w : Float) :
    KeypadCalc.Derives .sum budget [.number v, .divide, .number w]
      (.binary .div (.number v) (.number w)) :=
  .ofProduct (.product (.ofFactor .number) rfl .number)

/-- What is derived from percent literals is derived, with the same value, from the tokens that
they are written with. -/
theorem Derives.expand (h : Derives level budget ss e) :
    ∃ f, KeypadCalc.Derives level budget (expand ss) f ∧ f.value = e.value := by
  induction h with
  | number => exact ⟨_, .number, rfl⟩
  | literal => exact ⟨_, .paren (derives_quotient _ _ _), rfl⟩
  | positive _ ih =>
    obtain ⟨f, hf, hvalue⟩ := ih
    exact ⟨_, hf.positive, hvalue⟩
  | negative _ ih =>
    obtain ⟨f, hf, hvalue⟩ := ih
    exact ⟨_, hf.negative, congrArg Neg.neg hvalue⟩
  | paren _ ih =>
    obtain ⟨f, hf, hvalue⟩ := ih
    exact ⟨f, by simpa using hf.paren, hvalue⟩
  | ofFactor _ ih =>
    obtain ⟨f, hf, hvalue⟩ := ih
    exact ⟨f, .ofFactor hf, hvalue⟩
  | product _ hop _ ih ih' =>
    obtain ⟨f, hf, hvalue⟩ := ih
    obtain ⟨f', hf', hvalue'⟩ := ih'
    exact ⟨_, by simpa using hf.product hop hf', congrArg₂ _ hvalue hvalue'⟩
  | ofProduct _ ih =>
    obtain ⟨f, hf, hvalue⟩ := ih
    exact ⟨f, .ofProduct hf, hvalue⟩
  | sum _ hop _ ih ih' =>
    obtain ⟨f, hf, hvalue⟩ := ih
    obtain ⟨f', hf', hvalue'⟩ := ih'
    exact ⟨_, by simpa using hf.sum hop hf', congrArg₂ _ hvalue hvalue'⟩

/-- An operation between balanced tokens is one between the symbols that they stand for. -/
theorem exists_operands_of_expand (hts : Balanced ts) (ht : t ≠ .leftParen)
    (h : expand ss = ts ++ t :: us) :
    ∃ ss₁ ss₂, ss = ss₁ ++ .token t :: ss₂ ∧ expand ss₁ = ts ∧ expand ss₂ = us := by
  obtain ⟨ss₁, rest, rfl, hss₁, hrest⟩ := exists_append_of_expand hts h
  obtain ⟨ss₂, rfl, hss₂⟩ := expand_eq_cons ht hrest
  exact ⟨ss₁, ss₂, rfl, hss₁, hss₂⟩

/-- What is derived from the tokens of percent literals is derived, with the same value, from the
literals. -/
theorem exists_derives_of_expand (h : KeypadCalc.Derives level budget ts e) (hss : expand ss = ts) :
    ∃ f, Derives level budget ss f ∧ f.value = e.value := by
  induction h generalizing ss with
  | number =>
    obtain ⟨ss', rfl, hnil⟩ := expand_eq_cons (by simp) hss
    rw [expand_eq_nil hnil]
    exact ⟨_, .number, rfl⟩
  | positive _ ih =>
    obtain ⟨ss', rfl, hss'⟩ := expand_eq_cons (by decide) hss
    obtain ⟨f, hf, hvalue⟩ := ih hss'
    exact ⟨_, hf.positive, hvalue⟩
  | negative _ ih =>
    obtain ⟨ss', rfl, hss'⟩ := expand_eq_cons (by decide) hss
    obtain ⟨f, hf, hvalue⟩ := ih hss'
    exact ⟨_, hf.negative, congrArg Neg.neg hvalue⟩
  | paren hd ih =>
    rcases cases_of_expand_paren (balanced_of_derives hd) hss with
      ⟨ss', rfl, hss'⟩ | ⟨v, rfl, rfl⟩
    · obtain ⟨f, hf, hvalue⟩ := ih hss'
      exact ⟨f, hf.paren, hvalue⟩
    · obtain rfl := derives_unique hd (derives_quotient _ _ _)
      exact ⟨_, .literal, rfl⟩
  | ofFactor _ ih =>
    obtain ⟨f, hf, hvalue⟩ := ih hss
    exact ⟨f, .ofFactor hf, hvalue⟩
  | product hd hop _ ih ih' =>
    obtain ⟨ss₁, ss₂, rfl, hss₁, hss₂⟩ := exists_operands_of_expand (balanced_of_derives hd)
      (by rintro rfl; cases hop) hss
    obtain ⟨f, hf, hvalue⟩ := ih hss₁
    obtain ⟨f', hf', hvalue'⟩ := ih' hss₂
    exact ⟨_, hf.product hop hf', congrArg₂ _ hvalue hvalue'⟩
  | ofProduct _ ih =>
    obtain ⟨f, hf, hvalue⟩ := ih hss
    exact ⟨f, .ofProduct hf, hvalue⟩
  | sum hd hop _ ih ih' =>
    obtain ⟨ss₁, ss₂, rfl, hss₁, hss₂⟩ := exists_operands_of_expand (balanced_of_derives hd)
      (by rintro rfl; cases hop) hss
    obtain ⟨f, hf, hvalue⟩ := ih hss₁
    obtain ⟨f', hf', hvalue'⟩ := ih' hss₂
    exact ⟨_, hf.sum hop hf', congrArg₂ _ hvalue hvalue'⟩

/-- Symbols have the values of the tokens that they are written with. -/
theorem exists_derives_expand_iff :
    (∃ e, KeypadCalc.Derives level budget (expand ss) e ∧ e.value = v) ↔
      ∃ e, Derives level budget ss e ∧ e.value = v := by
  constructor
  · rintro ⟨e, he, rfl⟩
    exact exists_derives_of_expand he rfl
  · rintro ⟨e, he, rfl⟩
    exact he.expand

end KeypadCalc.Percent
