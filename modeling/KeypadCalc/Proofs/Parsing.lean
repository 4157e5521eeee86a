import KeypadCalc.Expr.Parser
import KeypadCalc.Proofs.Lexing

/-! Reading expressions is deriving them: a reader takes an expression off the front of a list of
lexemes exactly if the grammar derives it from the tokens taken, and it takes as many of them as it
can. Main statement: a text is evaluated exactly to the values of the expressions that the grammar
derives from it. -/

namespace KeypadCalc.Expr

variable {operator? : Token → Option BinaryOp} {operand : Reader} {size budget : Nat}
  {left e : Expr} {l : Lexeme} {ls rest : List Lexeme} {error : SyntaxError}

/-- A reader takes `e` off the front of `ls` and leaves `rest`. -/
def Reads (r : Reader) (ls : List Lexeme) (e : Expr) (rest : List Lexeme) : Prop :=
  ∃ h, r ls = .ok ⟨(e, rest), h⟩

/-- `left`, extended by operands from the front of `ls`, becomes `e` and leaves `rest`. -/
def Extends (operator? : Token → Option BinaryOp) (operand : Reader) (left : Expr)
    (ls : List Lexeme) (e : Expr) (rest : List Lexeme) : Prop :=
  ∃ h, extend operator? operand left ls = .ok ⟨(e, rest), h⟩

/-! ### One step of each reader -/

theorem bind_eq_ok {α β ε : Type} {x : Except ε α} {f : α → Except ε β} {b : β} :
    x >>= f = .ok b ↔ ∃ a, x = .ok a ∧ f a = .ok b := by
  cases x <;> simp [bind, Except.bind]

theorem bind_eq_error {α β ε : Type} {x : Except ε α} {f : α → Except ε β} {error : ε} :
    x >>= f = .error error ↔ x = .error error ∨ ∃ a, x = .ok a ∧ f a = .error error := by
  cases x <;> simp [bind, Except.bind]

theorem map_value_eq_ok_iff {ε : Type} {x : Except ε Expr} {v : Float} :
    x.map value = .ok v ↔ ∃ e, x = .ok e ∧ e.value = v := by
  cases x <;> simp [Except.map]

theorem extends_of_stop (hstop : ∀ l ∈ ls.head?, operator? l.token = none) :
    Extends operator? operand left ls e rest ↔ e = left ∧ rest = ls := by
  unfold Extends
  rw [extend.eq_def]
  cases ls with
  | nil => simp [eq_comm]
  | cons l tail =>
    simp only [hstop l rfl, Except.ok.injEq, Subtype.mk.injEq, Prod.mk.injEq]
    constructor
    · rintro ⟨_, rfl, rfl⟩
      exact ⟨rfl, rfl⟩
    · rintro ⟨rfl, rfl⟩
      exact ⟨Nat.le_refl _, rfl, rfl⟩

theorem extends_of_operator {op : BinaryOp} (hop : operator? l.token = some op) :
    Extends operator? operand left (l :: ls) e rest ↔
      ∃ right after, Reads operand ls right after ∧
        Extends operator? operand (.binary op left right) after e rest := by
  unfold Extends Reads
  rw [extend.eq_def]
  simp only [hop, bind_eq_ok, Subtype.exists, Prod.exists]
  constructor
  · rintro ⟨_, right, after, h, hr, e', rest', h', hx, heq⟩
    cases heq
    exact ⟨right, after, ⟨h, hr⟩, h', hx⟩
  · rintro ⟨right, after, ⟨h, hr⟩, h', hx⟩
    have hlen : rest.length ≤ (l :: ls).length := by
      simp only [List.length_cons] at h h' ⊢
      omega
    exact ⟨hlen, right, after, h, hr, e, rest, h', hx, rfl⟩

theorem reads_chain :
    Reads (chain operator? operand) ls e rest ↔
      ∃ left after, Reads operand ls left after ∧
        Extends operator? operand left after e rest := by
  unfold Extends Reads chain
  simp only [bind_eq_ok, Subtype.exists, Prod.exists]
  constructor
  · rintro ⟨_, left, after, h, hr, e', rest', h', hx, heq⟩
    cases heq
    exact ⟨left, after, ⟨h, hr⟩, h', hx⟩
  · rintro ⟨left, after, ⟨h, hr⟩, h', hx⟩
    exact ⟨Nat.lt_of_le_of_lt h' h, left, after, h, hr, e, rest, h', hx, rfl⟩

theorem reads_closed {e' : Expr} :
    Reads (closed size e') ls e rest ↔ e = e' ∧ ∃ l, l.token = .rightParen ∧ ls = l :: rest := by
  unfold Reads
  cases ls with
  | nil => simp [closed]
  | cons l tail =>
    simp only [closed]
    split
    · rename_i hl
      constructor
      · rintro ⟨_, heq⟩
        cases heq
        exact ⟨rfl, l, hl, rfl⟩
      · rintro ⟨rfl, l', -, heq⟩
        cases heq
        exact ⟨Nat.lt_succ_self _, rfl⟩
    · rename_i hl
      simp only [reduceCtorEq, exists_false, List.cons.injEq, false_iff, not_and, not_exists]
      rintro - l' hl' rfl
      exact absurd hl' hl

section

attribute [local simp] factor

theorem factor_number {v : Float} (hl : l.token = .number v) :
    factor size budget (l :: ls) = .ok ⟨(.number v, ls), Nat.lt_succ_self _⟩ := by
  cases budget <;> simp [hl]

theorem reads_factor_number {v : Float} (hl : l.token = .number v) :
    Reads (factor size budget) (l :: ls) e rest ↔ e = .number v ∧ rest = ls := by
  unfold Reads
  simp only [factor_number hl, Except.ok.injEq, Subtype.mk.injEq, Prod.mk.injEq]
  constructor
  · rintro ⟨_, rfl, rfl⟩
    exact ⟨rfl, rfl⟩
  · rintro ⟨rfl, rfl⟩
    exact ⟨Nat.lt_succ_self _, rfl, rfl⟩

theorem reads_factor_sign {sign : Expr → Expr}
    (hl : l.token = .plus ∧ sign = .positive ∨ l.token = .minus ∧ sign = .negative) :
    Reads (factor size (budget + 1)) (l :: ls) e rest ↔
      ∃ e', Reads (factor size budget) ls e' rest ∧ e = sign e' := by
  unfold Reads
  rcases hl with ⟨hl, rfl⟩ | ⟨hl, rfl⟩
  all_goals
    simp only [factor, hl, bind_eq_ok, Subtype.exists, Prod.exists]
    constructor
    · rintro ⟨_, e', after, h, hr, heq⟩
      cases heq
      exact ⟨e', ⟨h, hr⟩, rfl⟩
    · rintro ⟨e', ⟨h, hr⟩, rfl⟩
      exact ⟨Nat.lt_succ_of_lt h, e', rest, h, hr, rfl⟩

theorem reads_factor_leftParen (hl : l.token = .leftParen) :
    Reads (factor size (budget + 1)) (l :: ls) e rest ↔
      ∃ close, close.token = .rightParen ∧
        Reads (sumOf (factor size budget)) ls e (close :: rest) := by
  have hclosed : ∀ e' after, Reads (closed size e') after e rest ↔
      e = e' ∧ ∃ l, l.token = .rightParen ∧ after = l :: rest := fun _ _ => reads_closed
  unfold Reads at hclosed ⊢
  simp only [factor, hl, bind_eq_ok, Subtype.exists, Prod.exists]
  constructor
  · rintro ⟨_, e', after, h, hr, e'', rest', h', hc, heq⟩
    cases heq
    obtain ⟨rfl, close, hclose, rfl⟩ := (hclosed e' after).1 ⟨h', hc⟩
    exact ⟨close, hclose, h, hr⟩
  · rintro ⟨close, hclose, h, hr⟩
    obtain ⟨h', hc⟩ := (hclosed e (close :: rest)).2 ⟨rfl, close, hclose, rfl⟩
    have hlen : rest.length < (l :: ls).length := by
      simp only [List.length_cons] at h h' ⊢
      omega
    exact ⟨hlen, e, _, h, hr, e, rest, h', hc, rfl⟩

/-- A factor begins with a number, a sign or an opening parenthesis; without a budget only a number
is read. -/
theorem exists_of_reads_factor (h : Reads (factor size budget) ls e rest) :
    ∃ l tail, ls = l :: tail ∧ ((∃ v, l.token = .number v) ∨
      ∃ b, budget = b + 1 ∧ (l.token = .plus ∨ l.token = .minus ∨ l.token = .leftParen)) := by
  obtain ⟨_, h⟩ := h
  cases ls with
  | nil => cases budget <;> simp at h
  | cons l tail =>
    refine ⟨l, tail, rfl, ?_⟩
    cases hl : l.token <;> cases budget <;> simp [hl] at h ⊢

/-! ### Where a reader fails -/

/-- Extending fails in an operand, or in what follows one. -/
theorem extend_eq_error (h : extend operator? operand left ls = .error error) :
    ∃ l tail op, ls = l :: tail ∧ operator? l.token = some op ∧
      (operand tail = .error error ∨ ∃ right after, Reads operand tail right after ∧
        extend operator? operand (.binary op left right) after = .error error) := by
  rw [extend.eq_def] at h
  split at h
  · cases h
  · split at h
    · cases h
    · rename_i l tail _ op hop
      refine ⟨l, tail, op, rfl, hop, ?_⟩
      rcases bind_eq_error.1 h with h | ⟨⟨⟨right, after⟩, hlt⟩, hright, h⟩
      · exact .inl h
      · rcases bind_eq_error.1 h with h | ⟨_, -, h⟩
        · exact .inr ⟨right, after, ⟨hlt, hright⟩, h⟩
        · cases h

theorem chain_eq_error (h : chain operator? operand ls = .error error) :
    operand ls = .error error ∨ ∃ left after, Reads operand ls left after ∧
      extend operator? operand left after = .error error := by
  rcases bind_eq_error.1 h with h | ⟨⟨⟨left, after⟩, hlt⟩, hleft, h⟩
  · exact .inl h
  · rcases bind_eq_error.1 h with h | ⟨_, -, h⟩
    · exact .inr ⟨left, after, ⟨hlt, hleft⟩, h⟩
    · cases h

theorem factor_nil : factor size budget [] = .error ⟨size, .unexpectedEnd⟩ := by
  cases budget <;> rfl

/-- Without a budget nothing is opened. -/
theorem factor_zero (hl : l.token = .plus ∨ l.token = .minus ∨ l.token = .leftParen) :
    factor size 0 (l :: ls) = .error ⟨start size ls, .tooDeep⟩ := by
  rcases hl with hl | hl | hl <;> simp only [factor, hl]

theorem factor_other (hnumber : ∀ v, l.token ≠ .number v)
    (hopens : ¬(l.token = .plus ∨ l.token = .minus ∨ l.token = .leftParen)) :
    factor size budget (l :: ls) = .error ⟨l.position, .missingNumber l.token⟩ := by
  cases hl : l.token with
  | number v => exact absurd hl (hnumber v)
  | plus | minus | leftParen => simp [hl] at hopens
  | _ => cases budget <;> simp only [factor, hl]

theorem factor_sign_eq_error (hl : l.token = .plus ∨ l.token = .minus)
    (h : factor size (budget + 1) (l :: ls) = .error error) :
    factor size budget ls = .error error := by
  rcases hl with hl | hl
  all_goals
    simp only [factor, hl] at h
    rcases bind_eq_error.1 h with h | ⟨_, -, h⟩
    · exact h
    · cases h

theorem factor_leftParen_eq_error (hl : l.token = .leftParen)
    (h : factor size (budget + 1) (l :: ls) = .error error) :
    sumOf (factor size budget) ls = .error error ∨
      ∃ e after, Reads (sumOf (factor size budget)) ls e after ∧
        closed size e after = .error error := by
  simp only [factor, hl] at h
  rcases bind_eq_error.1 h with h | ⟨⟨⟨e, after⟩, hlt⟩, he, h⟩
  · exact .inl h
  · rcases bind_eq_error.1 h with h | ⟨_, -, h⟩
    · exact .inr ⟨e, after, ⟨hlt, he⟩, h⟩
    · cases h

end

/-! ### What is read can be derived -/

/-- What a reader takes off the front is derived by `D`. -/
def Sound (r : Reader) (D : List Token → Expr → Prop) : Prop :=
  ∀ ls e rest, Reads r ls e rest → ∃ used, ls = used ++ rest ∧ D (used.map Lexeme.token) e

/-- Extending by operands keeps to a grammar level that is closed under operations with
operands. -/
theorem sound_extends {D D' : List Token → Expr → Prop} (hoperand : Sound operand D)
    (hstep : ∀ ts us t op e f, D' ts e → operator? t = some op → D us f →
      D' (ts ++ t :: us) (.binary op e f)) (n : Nat) :
    ∀ ls left e rest used, ls.length ≤ n → Extends operator? operand left ls e rest →
      D' (used.map Lexeme.token) left →
      ∃ more, ls = more ++ rest ∧ D' ((used ++ more).map Lexeme.token) e := by
  induction n with
  | zero =>
    intro ls left e rest used hn hx hleft
    obtain rfl := List.eq_nil_of_length_eq_zero (Nat.le_zero.1 hn)
    obtain ⟨rfl, rfl⟩ := (extends_of_stop (by simp)).1 hx
    exact ⟨[], rfl, by simpa using hleft⟩
  | succ n ih =>
    intro ls left e rest used hn hx hleft
    cases ls with
    | nil =>
      obtain ⟨rfl, rfl⟩ := (extends_of_stop (by simp)).1 hx
      exact ⟨[], rfl, by simpa using hleft⟩
    | cons l tail =>
      cases hop : operator? l.token with
      | none =>
        obtain ⟨rfl, rfl⟩ := (extends_of_stop (by simpa using hop)).1 hx
        exact ⟨[], rfl, by simpa using hleft⟩
      | some op =>
        obtain ⟨right, after, hright, hx'⟩ := (extends_of_operator hop).1 hx
        obtain ⟨mid, rfl, hmid⟩ := hoperand _ _ _ hright
        have hlen : after.length ≤ n := by
          simp only [List.length_cons, List.length_append] at hn
          omega
        obtain ⟨more, rfl, hmore⟩ := ih after (.binary op left right) e rest (used ++ l :: mid)
          hlen hx' (by simpa using hstep _ _ _ _ _ _ hleft hop hmid)
        exact ⟨l :: mid ++ more, by simp, by simpa using hmore⟩

theorem sound_chain {D D' : List Token → Expr → Prop} (hoperand : Sound operand D)
    (hone : ∀ ts e, D ts e → D' ts e)
    (hstep : ∀ ts us t op e f, D' ts e → operator? t = some op → D us f →
      D' (ts ++ t :: us) (.binary op e f)) : Sound (chain operator? operand) D' := by
  intro ls e rest h
  obtain ⟨left, after, hleft, hx⟩ := reads_chain.1 h
  obtain ⟨used, rfl, hused⟩ := hoperand _ _ _ hleft
  obtain ⟨more, rfl, hmore⟩ :=
    sound_extends hoperand hstep _ after left e rest used (Nat.le_refl _) hx (hone _ _ hused)
  exact ⟨used ++ more, by simp, hmore⟩

theorem sound_sumOf (h : Sound (factor size budget) (Derives .factor budget)) :
    Sound (sumOf (factor size budget)) (Derives .sum budget) :=
  sound_chain
    (sound_chain h (fun _ _ => .ofFactor) fun _ _ _ _ _ _ hts hop hus => .product hts hop hus)
    (fun _ _ => .ofProduct) fun _ _ _ _ _ _ hts hop hus => .sum hts hop hus

theorem sound_factor (size budget : Nat) :
    Sound (factor size budget) (Derives .factor budget) := by
  induction budget with
  | zero =>
    intro ls e rest h
    obtain ⟨l, tail, rfl, ⟨v, hl⟩ | ⟨b, hb, -⟩⟩ := exists_of_reads_factor h
    · obtain ⟨rfl, rfl⟩ := (reads_factor_number hl).1 h
      exact ⟨[l], rfl, by simpa [hl] using Derives.number⟩
    · exact absurd hb (Nat.succ_ne_zero b).symm
  | succ budget ih =>
    intro ls e rest h
    obtain ⟨l, tail, rfl, ⟨v, hl⟩ | ⟨b, hb, hl | hl | hl⟩⟩ := exists_of_reads_factor h
    · obtain ⟨rfl, rfl⟩ := (reads_factor_number hl).1 h
      exact ⟨[l], rfl, by simpa [hl] using Derives.number⟩
    · obtain ⟨e', he', rfl⟩ := (reads_factor_sign (.inl ⟨hl, rfl⟩)).1 h
      obtain ⟨used, rfl, hused⟩ := ih _ _ _ he'
      exact ⟨l :: used, rfl, by simpa [hl] using hused.positive⟩
    · obtain ⟨e', he', rfl⟩ := (reads_factor_sign (.inr ⟨hl, rfl⟩)).1 h
      obtain ⟨used, rfl, hused⟩ := ih _ _ _ he'
      exact ⟨l :: used, rfl, by simpa [hl] using hused.negative⟩
    · obtain ⟨close, hclose, he⟩ := (reads_factor_leftParen hl).1 h
      obtain ⟨used, rfl, hused⟩ := sound_sumOf ih _ _ _ he
      exact ⟨l :: used ++ [close], by simp, by simpa [hl, hclose] using hused.paren⟩

/-! ### What can be derived is read -/

/-- The next lexeme, if there is one, is no operator of the given kind. -/
def Stops (operator? : Token → Option BinaryOp) (ls : List Lexeme) : Prop :=
  ∀ l ∈ ls.head?, operator? l.token = none

/-- What the reader at each level does with lexemes that the grammar derives. A factor is read
whatever follows it; at the other levels the reader goes on with the operators that follow. -/
def Completes (size : Nat) : Level → Nat → List Token → Expr → Prop
  | .factor, budget, ts, e => ∀ used rest, used.map Lexeme.token = ts →
      Reads (factor size budget) (used ++ rest) e rest
  | .product, budget, ts, e => ∀ used rest f after, used.map Lexeme.token = ts →
      Extends Token.multiplicative? (factor size budget) e rest f after →
      Reads (chain Token.multiplicative? (factor size budget)) (used ++ rest) f after
  | .sum, budget, ts, e => ∀ used rest f after, used.map Lexeme.token = ts →
      Stops Token.multiplicative? rest →
      Extends Token.additive? (chain Token.multiplicative? (factor size budget)) e rest f after →
      Reads (sumOf (factor size budget)) (used ++ rest) f after

theorem multiplicative?_of_additive? {t : Token} {op : BinaryOp} (h : t.additive? = some op) :
    t.multiplicative? = none := by
  cases t <;> simp [Token.additive?] at h <;> rfl

theorem completes_of_derives {level : Level} {ts : List Token} (h : Derives level budget ts e) :
    Completes size level budget ts e := by
  induction h with
  | number =>
    intro used rest hused
    obtain ⟨l, rfl, hl⟩ := List.map_eq_singleton_iff.1 hused
    exact (reads_factor_number hl).2 ⟨rfl, rfl⟩
  | positive _ ih =>
    intro used rest hused
    obtain ⟨l, used', rfl, hl, hused'⟩ := List.map_eq_cons_iff.1 hused
    exact (reads_factor_sign (.inl ⟨hl, rfl⟩)).2 ⟨_, ih used' rest hused', rfl⟩
  | negative _ ih =>
    intro used rest hused
    obtain ⟨l, used', rfl, hl, hused'⟩ := List.map_eq_cons_iff.1 hused
    exact (reads_factor_sign (.inr ⟨hl, rfl⟩)).2 ⟨_, ih used' rest hused', rfl⟩
  | paren _ ih =>
    intro used rest hused
    obtain ⟨l, tail, rfl, hl, htail⟩ := List.map_eq_cons_iff.1 hused
    obtain ⟨used', last, rfl, hused', hlast⟩ := List.map_eq_append_iff.1 htail
    obtain ⟨close, rfl, hclose⟩ := List.map_eq_singleton_iff.1 hlast
    refine (reads_factor_leftParen hl).2 ⟨close, hclose, ?_⟩
    have hmul : Stops Token.multiplicative? (close :: rest) := by
      simp [Stops, hclose, Token.multiplicative?]
    have hadd : Stops Token.additive? (close :: rest) := by
      simp [Stops, hclose, Token.additive?]
    simpa using ih used' (close :: rest) _ _ hused' hmul ((extends_of_stop hadd).2 ⟨rfl, rfl⟩)
  | ofFactor _ ih =>
    intro used rest f after hused hx
    exact reads_chain.2 ⟨_, rest, ih used rest hused, hx⟩
  | product _ hop _ ih ih' =>
    intro used rest f after hused hx
    obtain ⟨first, last, rfl, hfirst, hlast⟩ := List.map_eq_append_iff.1 hused
    obtain ⟨l, second, rfl, rfl, hsecond⟩ := List.map_eq_cons_iff.1 hlast
    rw [List.append_assoc, List.cons_append]
    exact ih first _ f after hfirst
      ((extends_of_operator hop).2 ⟨_, rest, ih' second rest hsecond, hx⟩)
  | ofProduct _ ih =>
    intro used rest f after hused hstop hx
    refine reads_chain.2 ⟨_, rest, ?_, hx⟩
    exact ih used rest _ rest hused ((extends_of_stop hstop).2 ⟨rfl, rfl⟩)
  | sum _ hop _ ih ih' =>
    intro used rest f after hused hstop hx
    obtain ⟨first, last, rfl, hfirst, hlast⟩ := List.map_eq_append_iff.1 hused
    obtain ⟨l, second, rfl, rfl, hsecond⟩ := List.map_eq_cons_iff.1 hlast
    rw [List.append_assoc, List.cons_append]
    refine ih first _ f after hfirst ?_ ((extends_of_operator hop).2 ⟨_, rest, ?_, hx⟩)
    · simpa [Stops] using multiplicative?_of_additive? hop
    · exact ih' second rest _ rest hsecond ((extends_of_stop hstop).2 ⟨rfl, rfl⟩)

/-! ### Whole texts -/

/-- A reader of sums takes all lexemes exactly if a sum is derived from their tokens. -/
theorem reads_sumOf_all_iff :
    Reads (sumOf (factor size budget)) ls e [] ↔ Derives .sum budget (ls.map Lexeme.token) e := by
  constructor
  · intro h
    obtain ⟨used, rfl, hused⟩ := sound_sumOf (sound_factor size budget) _ _ _ h
    simpa using hused
  · intro h
    have hcompletes : Completes size .sum budget (ls.map Lexeme.token) e :=
      completes_of_derives h
    simpa using hcompletes ls [] e [] rfl (by simp [Stops])
      ((extends_of_stop (by simp)).2 ⟨rfl, rfl⟩)

theorem ofLexemes_eq_ok_iff :
    ofLexemes size ls = .ok e ↔ Derives .sum maxDepth (ls.map Lexeme.token) e := by
  refine Iff.trans (b := Reads (sumOf (factor size maxDepth)) ls e []) ?_ reads_sumOf_all_iff
  unfold ofLexemes Reads
  simp only [bind_eq_ok, Subtype.exists, Prod.exists]
  constructor
  · rintro ⟨e', after, h, hr, heq⟩
    cases after with
    | nil => cases heq; exact ⟨h, hr⟩
    | cons l tail => simp at heq
  · rintro ⟨h, hr⟩
    exact ⟨e, [], h, hr, rfl⟩

/-- A text is parsed to the expressions that the grammar derives from its tokens. -/
theorem parse_eq_ok_iff {t : Text} :
    parse t = .ok e ↔ ∃ ls, Lexes 0 t ls ∧ Derives .sum maxDepth (ls.map Lexeme.token) e := by
  simp only [parse, bind_eq_ok, Lexeme.ofText_eq_ok_iff, ofLexemes_eq_ok_iff]

/-- A text stands for an expression that the grammar derives from its tokens with no number under
more than 256 signs and parentheses. -/
def StandsFor (t : Text) (e : Expr) : Prop :=
  ∃ ls, Lexes 0 t ls ∧ Derives .sum 256 (ls.map Lexeme.token) e

theorem standsFor_iff {t : Text} : StandsFor t e ↔ parse t = .ok e := parse_eq_ok_iff.symm

/-- Evaluating a text gives the value of the one expression that it stands for, and a syntax error
if it stands for none. -/
theorem value_eq_ok_iff_standsFor (t : Text) :
    (∀ v, (parse t).map value = .ok v ↔ ∃ e, StandsFor t e ∧ e.value = v) ∧
      (∀ e e', StandsFor t e → StandsFor t e' → e = e') ∧
      ((∃ error, (parse t).map value = .error error) ↔ ∀ e, ¬StandsFor t e) := by
  simp only [standsFor_iff]
  refine ⟨fun v => ?_, fun e e' h h' => Except.ok.inj (h.symm.trans h'), ?_⟩
  · cases parse t <;> simp [Except.map]
  · cases parse t <;> simp [Except.map]

end KeypadCalc.Expr
