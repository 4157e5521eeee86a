import KeypadCalc.Proofs.Parsing.Descent
import KeypadCalc.Proofs.Parsing.FirstError

/-! What calls come to. At each counter a call reads what the reader with the rest of the limit as
its budget reads, leaves the counter as it found it, and fails with the error with which that reader
fails. Main statement: a descent has ended after a number of steps linear in the number of lexemes,
its outcome is the expression or the error that is read from them, and every call in it that
succeeds has gone forward and has given back all that it counted. -/

namespace KeypadCalc.Descent

open KeypadCalc.Expr (Reader Reads Extends Stops extend chain sumOf closed factor maxDepth)

variable {size budget n i d : Nat} {ls rest tail : List Lexeme} {l : Lexeme} {s s' s'' : Descent}
  {k : List Frame} {r : Routine} {c : Chain} {left : Option (Expr × BinaryOp)} {e e' : Expr}
  {op : BinaryOp} {error : SyntaxError} {operand : Reader}

/-! ### Runs -/

/-- Some steps lead from one descent to another. -/
def Leads (size : Nat) (ls : List Lexeme) (s s' : Descent) : Prop := ∃ n, run size ls n s = s'

theorem Leads.refl : Leads size ls s s := ⟨0, rfl⟩

theorem Leads.head (h : step size ls s = some s') (h' : Leads size ls s' s'') :
    Leads size ls s s'' := by
  obtain ⟨n, rfl⟩ := h'
  exact ⟨n + 1, run_succ h⟩

theorem Leads.trans (h : Leads size ls s s') (h' : Leads size ls s' s'') : Leads size ls s s'' := by
  obtain ⟨m, rfl⟩ := h
  obtain ⟨n, rfl⟩ := h'
  exact ⟨m + n, run_add m n s⟩

theorem Leads.single (h : step size ls s = some s') : Leads size ls s s' := .head h .refl

/-- Where a run cannot go on, every run that is long enough ends. -/
theorem Leads.run_eq (h : Leads size ls s s') (hs' : step size ls s' = none)
    (hn : cost ls s ≤ n) : run size ls n s = s' := by
  obtain ⟨m, rfl⟩ := h
  calc run size ls n s
    _ = run size ls (n + m) s := by rw [run_add, run_of_step_eq_none (step_run_eq_none hn)]
    _ = run size ls (m + n) s := by rw [Nat.add_comm]
    _ = run size ls m s := by rw [run_add, run_of_step_eq_none hs']

/-! ### Steps at given lexemes -/

theorem drop_succ (h : ls.drop i = l :: tail) : ls.drop (i + 1) = tail := by
  rw [← List.tail_drop, h, List.tail_cons]

theorem getElem?_of_drop (h : ls.drop i = rest) : ls[i]? = rest.head? := by
  rw [← h, List.head?_drop]

section

attribute [local simp] step

theorem step_next (h : ls.drop i = l :: tail) (hop : c.operator? l.token = some op) :
    step size ls ⟨.returning e, .operand c left :: k, i, d⟩ =
      some ⟨.calling c.operand, .operand c (some (joined left e, op)) :: k, i + 1, d⟩ := by
  simp [getElem?_of_drop h, hop]

theorem step_finish (h : Stops c.operator? (ls.drop i)) :
    step size ls ⟨.returning e, .operand c left :: k, i, d⟩ =
      some ⟨.returning (joined left e), k, i, d⟩ := by
  have hnone : (ls[i]?.bind fun l => c.operator? l.token) = none := by
    rw [← List.head?_drop]
    exact Option.bind_eq_none_iff.2 h
  simp [hnone]

theorem step_sign {negative : Bool} (h : ls.drop i = l :: tail)
    (hl : l.token.sign? = some negative) :
    step size ls ⟨.calling .signed, k, i, d⟩ =
      some (enter size ls .signed (.sign negative :: k) (i + 1) d) := by
  simp [getElem?_of_drop h, hl]

theorem step_unsigned (h : ∀ l ∈ (ls.drop i).head?, l.token.sign? = none) :
    step size ls ⟨.calling .signed, k, i, d⟩ = some ⟨.calling .primary, k, i, d⟩ := by
  have hnone : (ls[i]?.bind fun l => l.token.sign?) = none := by
    rw [← List.head?_drop]
    exact Option.bind_eq_none_iff.2 h
  simp [hnone]

theorem step_nil (h : ls.drop i = []) :
    step size ls ⟨.calling .primary, k, i, d⟩ =
      some ⟨.failed ⟨size, .unexpectedEnd⟩, k, i, d⟩ := by
  simp [getElem?_of_drop h]

theorem step_number {v : Float} (h : ls.drop i = l :: tail) (hl : l.token = .number v) :
    step size ls ⟨.calling .primary, k, i, d⟩ = some ⟨.returning (.number v), k, i + 1, d⟩ := by
  simp [getElem?_of_drop h, hl]

theorem step_group (h : ls.drop i = l :: tail) (hl : l.token = .leftParen) :
    step size ls ⟨.calling .primary, k, i, d⟩ =
      some (enter size ls (.chain .sum) (.group :: k) (i + 1) d) := by
  simp [getElem?_of_drop h, hl]

theorem step_other (h : ls.drop i = l :: tail) (hnumber : ∀ v, l.token ≠ .number v)
    (hparen : l.token ≠ .leftParen) :
    step size ls ⟨.calling .primary, k, i, d⟩ =
      some ⟨.failed ⟨l.position, .missingNumber l.token⟩, k, i, d⟩ := by
  cases hl : l.token <;> simp_all [getElem?_of_drop h]

theorem step_close (h : ls.drop i = l :: tail) (hl : l.token = .rightParen) :
    step size ls ⟨.returning e, .group :: k, i, d⟩ = some ⟨.returning e, k, i + 1, d - 1⟩ := by
  simp [getElem?_of_drop h, hl]

theorem step_unclosed (h : closed size e (ls.drop i) = .error error) :
    step size ls ⟨.returning e, .group :: k, i, d⟩ = some ⟨.failed error, k, i, d - 1⟩ := by
  cases hdrop : ls.drop i with
  | nil =>
    rw [hdrop] at h
    cases h
    simp [getElem?_of_drop hdrop]
  | cons l tail =>
    rw [hdrop, closed] at h
    split at h
    · cases h
    · rename_i hl
      cases h
      simp [getElem?_of_drop hdrop, hl]

end

theorem enter_of_lt (h : d < maxDepth) :
    enter size ls r k i d = ⟨.calling r, k, i, d + 1⟩ :=
  if_neg (Nat.not_lt.2 h)

theorem enter_maxDepth :
    enter size ls r k i maxDepth =
      ⟨.failed ⟨Expr.start size (ls.drop i), .tooDeep⟩, k, i, maxDepth + 1⟩ :=
  if_pos (Nat.lt_succ_self _)

/-! ### Calls -/

/-- Some steps lead to an error. -/
def LeadsToError (size : Nat) (ls : List Lexeme) (s : Descent) (error : SyntaxError) : Prop :=
  ∃ s', Leads size ls s s' ∧ s'.control = .failed error

theorem Leads.toError (h : Leads size ls s s') (h' : LeadsToError size ls s' error) :
    LeadsToError size ls s error := by
  obtain ⟨s'', hs'', herror⟩ := h'
  exact ⟨s'', h.trans hs'', herror⟩

/-- From `s` steps lead to what a reader makes of the lexemes `rest`: to its expression, with the
cursor after the lexemes that it takes, the frames `k` and the counter at `d`, or to its error. -/
structure Answers (size : Nat) (ls : List Lexeme) (k : List Frame) (d : Nat) (reader : Reader)
    (rest : List Lexeme) (s : Descent) : Prop where
  reads : ∀ {e after}, Reads reader rest e after → ∃ j, ls.drop j = after ∧
    Leads size ls s ⟨.returning e, k, j, d⟩
  fails : ∀ {error}, reader rest = .error error → LeadsToError size ls s error

/-- Calls of a routine with the counter at `d` do what a reader does. -/
def Serves (size : Nat) (ls : List Lexeme) (d : Nat) (r : Routine) (reader : Reader) : Prop :=
  ∀ k i, Answers size ls k d reader (ls.drop i) ⟨.calling r, k, i, d⟩

theorem leads_of_extends (hoperand : Serves size ls d c.operand operand)
    (left : Option (Expr × BinaryOp))
    (h : Extends c.operator? operand (joined left e) (ls.drop i) e' rest) :
    ∃ j, ls.drop j = rest ∧
      Leads size ls ⟨.returning e, .operand c left :: k, i, d⟩ ⟨.returning e', k, j, d⟩ := by
  induction hn : ls.length - i using Nat.strongRecOn generalizing i left e with
  | ind n ih =>
    obtain ⟨hstop, rfl, rfl⟩ | ⟨l, tail, op, right, after, hdrop, hop, hright, hmore⟩ := h.cases
    · exact ⟨i, rfl, .single (step_finish hstop)⟩
    · obtain rfl := drop_succ hdrop
      have hcall := hoperand (.operand c (some (joined left e, op)) :: k) (i + 1)
      obtain ⟨j, rfl, hleads⟩ := hcall.reads hright
      have hlt := hright.1
      simp only [List.length_drop] at hlt
      obtain ⟨j', hj', hleads'⟩ := ih _ (by omega) (some (joined left e, op)) hmore rfl
      exact ⟨j', hj', .head (step_next hdrop hop) (hleads.trans hleads')⟩

theorem leadsToError_of_extend (hoperand : Serves size ls d c.operand operand)
    (left : Option (Expr × BinaryOp))
    (h : extend c.operator? operand (joined left e) (ls.drop i) = .error error) :
    LeadsToError size ls ⟨.returning e, .operand c left :: k, i, d⟩ error := by
  induction hn : ls.length - i using Nat.strongRecOn generalizing i left e with
  | ind n ih =>
    obtain ⟨l, tail, op, hdrop, hop, hfail⟩ := Expr.extend_eq_error h
    obtain rfl := drop_succ hdrop
    have hcall := hoperand (.operand c (some (joined left e, op)) :: k) (i + 1)
    refine (Leads.single (step_next hdrop hop)).toError ?_
    rcases hfail with hfail | ⟨right, after, hright, hfail⟩
    · exact hcall.fails hfail
    · obtain ⟨j, rfl, hleads⟩ := hcall.reads hright
      have hlt := hright.1
      simp only [List.length_drop] at hlt
      exact hleads.toError (ih _ (by omega) (some (joined left e, op)) hfail rfl)

theorem serves_chain (hoperand : Serves size ls d c.operand operand) :
    Serves size ls d (.chain c) (chain c.operator? operand) := by
  intro k i
  have hcall := hoperand (.operand c none :: k) i
  constructor
  · intro e rest h
    obtain ⟨left, after, hleft, hmore⟩ := Expr.reads_chain.1 h
    obtain ⟨j, rfl, hleads⟩ := hcall.reads hleft
    obtain ⟨j', hj', hleads'⟩ := leads_of_extends hoperand none hmore
    exact ⟨j', hj', .head rfl (hleads.trans hleads')⟩
  · intro error h
    refine (Leads.single rfl).toError ?_
    rcases Expr.chain_eq_error h with hfail | ⟨left, after, hleft, hfail⟩
    · exact hcall.fails hfail
    · obtain ⟨j, rfl, hleads⟩ := hcall.reads hleft
      exact hleads.toError (leadsToError_of_extend hoperand none hfail)

theorem serves_sum (h : Serves size ls d .signed (factor size budget)) :
    Serves size ls d (.chain .sum) (sumOf (factor size budget)) :=
  serves_chain (c := .sum) (serves_chain (c := .product) h)

/-! ### Factors -/

theorem answers_number {v : Float} (hdrop : ls.drop i = l :: tail) (hl : l.token = .number v) :
    Answers size ls k d (factor size budget) (l :: tail) ⟨.calling .signed, k, i, d⟩ := by
  have hsign : ∀ l ∈ (ls.drop i).head?, l.token.sign? = none := by simp [hdrop, hl, Token.sign?]
  constructor
  · intro e after h
    obtain ⟨rfl, rfl⟩ := (Expr.reads_factor_number hl).1 h
    exact ⟨i + 1, drop_succ hdrop, .head (step_unsigned hsign) (.single (step_number hdrop hl))⟩
  · intro error h
    rw [Expr.factor_number hl] at h
    cases h

/-- A reader that fails only has to be answered by its error. -/
theorem answers_error (hleads : LeadsToError size ls s error)
    (h : factor size budget rest = .error error) :
    Answers size ls k d (factor size budget) rest s := by
  constructor
  · rintro e after ⟨_, hread⟩
    rw [h] at hread
    cases hread
  · intro error' herror
    obtain rfl := Except.error.inj (h.symm.trans herror)
    exact hleads

theorem answers_sign {sign : Expr → Expr}
    (hinner : Serves size ls (d + 1) .signed (factor size budget)) (hlt : d < maxDepth)
    (hdrop : ls.drop i = l :: tail)
    (hl : l.token = .plus ∧ sign = .positive ∨ l.token = .minus ∧ sign = .negative) :
    Answers size ls k d (factor size (budget + 1)) (l :: tail) ⟨.calling .signed, k, i, d⟩ := by
  obtain ⟨negative, hsign, rfl⟩ : ∃ negative, l.token.sign? = some negative ∧
      sign = signed negative := by
    rcases hl with ⟨hl, rfl⟩ | ⟨hl, rfl⟩
    · exact ⟨false, by rw [hl]; rfl, rfl⟩
    · exact ⟨true, by rw [hl]; rfl, rfl⟩
  obtain rfl := drop_succ hdrop
  have hcall := hinner (.sign negative :: k) (i + 1)
  have hstep : step size ls ⟨.calling .signed, k, i, d⟩ =
      some ⟨.calling .signed, .sign negative :: k, i + 1, d + 1⟩ := by
    rw [step_sign hdrop hsign, enter_of_lt hlt]
  constructor
  · intro e after h
    obtain ⟨e', he', rfl⟩ := (Expr.reads_factor_sign hl).1 h
    obtain ⟨j, hj, hleads⟩ := hcall.reads he'
    exact ⟨j, hj, .head hstep (hleads.trans (.single rfl))⟩
  · intro error h
    have hsigns : l.token = .plus ∨ l.token = .minus := hl.imp And.left And.left
    exact (Leads.single hstep).toError (hcall.fails (Expr.factor_sign_eq_error hsigns h))

theorem answers_group (hinner : Serves size ls (d + 1) .signed (factor size budget))
    (hlt : d < maxDepth) (hdrop : ls.drop i = l :: tail) (hl : l.token = .leftParen) :
    Answers size ls k d (factor size (budget + 1)) (l :: tail) ⟨.calling .signed, k, i, d⟩ := by
  obtain rfl := drop_succ hdrop
  have hcall := serves_sum hinner (.group :: k) (i + 1)
  have hstep : step size ls ⟨.calling .primary, k, i, d⟩ =
      some ⟨.calling (.chain .sum), .group :: k, i + 1, d + 1⟩ := by
    rw [step_group hdrop hl, enter_of_lt hlt]
  have henter := Leads.head (step_unsigned (by simp [hdrop, hl, Token.sign?])) (.single hstep)
  constructor
  · intro e after h
    obtain ⟨close, hclose, he⟩ := (Expr.reads_factor_leftParen hl).1 h
    obtain ⟨j, hj, hleads⟩ := hcall.reads he
    exact ⟨j + 1, drop_succ hj, henter.trans (hleads.trans (.single (step_close hj hclose)))⟩
  · intro error h
    refine henter.toError ?_
    rcases Expr.factor_leftParen_eq_error hl h with hfail | ⟨e, after, he, hfail⟩
    · exact hcall.fails hfail
    · obtain ⟨j, rfl, hleads⟩ := hcall.reads he
      exact hleads.toError ⟨_, .single (step_unclosed hfail), rfl⟩

/-- What would open one more level than the limit fails after that token. -/
theorem answers_tooDeep (hdrop : ls.drop i = l :: tail)
    (hl : l.token = .plus ∨ l.token = .minus ∨ l.token = .leftParen) :
    Answers size ls k maxDepth (factor size 0) (l :: tail) ⟨.calling .signed, k, i, maxDepth⟩ := by
  obtain rfl := drop_succ hdrop
  refine answers_error ?_ (Expr.factor_zero hl)
  cases hsign : l.token.sign? with
  | some negative =>
    refine ⟨_, .single (step_sign hdrop hsign), ?_⟩
    rw [enter_maxDepth]
  | none =>
    have hparen : l.token = .leftParen := by rcases hl with hl | hl | hl <;> simp_all [Token.sign?]
    refine ⟨_, .head (step_unsigned (by simpa [hdrop] using hsign))
      (.single (step_group hdrop hparen)), ?_⟩
    rw [enter_maxDepth]

theorem answers_nil (hdrop : ls.drop i = []) :
    Answers size ls k d (factor size budget) [] ⟨.calling .signed, k, i, d⟩ := by
  have hsign : ∀ l ∈ (ls.drop i).head?, l.token.sign? = none := by simp [hdrop]
  exact answers_error ⟨_, .head (step_unsigned hsign) (.single (step_nil hdrop)), rfl⟩
    Expr.factor_nil

theorem answers_other (hdrop : ls.drop i = l :: tail) (hnumber : ∀ v, l.token ≠ .number v)
    (hopens : ¬(l.token = .plus ∨ l.token = .minus ∨ l.token = .leftParen)) :
    Answers size ls k d (factor size budget) (l :: tail) ⟨.calling .signed, k, i, d⟩ := by
  have hsign : ∀ l ∈ (ls.drop i).head?, l.token.sign? = none := by
    cases hl : l.token <;> simp_all [Token.sign?]
  have hparen : l.token ≠ .leftParen := fun hl => hopens (.inr (.inr hl))
  exact answers_error
    ⟨_, .head (step_unsigned hsign) (.single (step_other hdrop hnumber hparen)), rfl⟩
    (Expr.factor_other hnumber hopens)

/-- What is left of the limit is the budget. -/
theorem serves_factor (size : Nat) (ls : List Lexeme) (budget : Nat) :
    ∀ d, d + budget = maxDepth → Serves size ls d .signed (factor size budget) := by
  induction budget with
  | zero =>
    rintro d rfl k i
    cases hdrop : ls.drop i with
    | nil => exact answers_nil hdrop
    | cons l tail =>
      by_cases hopens : l.token = .plus ∨ l.token = .minus ∨ l.token = .leftParen
      · exact answers_tooDeep hdrop hopens
      · cases hl : l.token with
        | number v => exact answers_number hdrop hl
        | _ => exact answers_other hdrop (by simp [hl]) hopens
  | succ budget ih =>
    intro d hd k i
    have hinner := ih (d + 1) (by omega)
    have hlt : d < maxDepth := by omega
    cases hdrop : ls.drop i with
    | nil => exact answers_nil hdrop
    | cons l tail =>
      cases hl : l.token with
      | number v => exact answers_number hdrop hl
      | plus => exact answers_sign hinner hlt hdrop (.inl ⟨hl, rfl⟩)
      | minus => exact answers_sign hinner hlt hdrop (.inr ⟨hl, rfl⟩)
      | leftParen => exact answers_group hinner hlt hdrop hl
      | _ => exact answers_other hdrop (by simp [hl]) (by simp [hl])

/-! ### Whole descents -/

/-- A descent ends with what is read from the lexemes. -/
theorem outcome?_run (hn : 7 * ls.length + 6 ≤ n) :
    (run size ls n initial).outcome? ls = some (Expr.ofLexemes size ls) := by
  have hcall := serves_sum (serves_factor size ls maxDepth 0 (Nat.zero_add _)) [] 0
  have hcost : cost ls initial ≤ n := by simpa [cost, initial, Routine.weight] using hn
  rw [List.drop_zero] at hcall
  cases hread : sumOf (factor size maxDepth) ls with
  | error error =>
    obtain ⟨⟨_, k, i, d⟩, hleads, rfl⟩ := hcall.fails hread
    have hend : run size ls n initial = ⟨.failed error, k, i, d⟩ := hleads.run_eq rfl hcost
    rw [hend, Expr.ofLexemes, hread]
    rfl
  | ok result =>
    obtain ⟨⟨e, rest⟩, hlt⟩ := result
    obtain ⟨j, hj, hleads⟩ := hcall.reads ⟨hlt, hread⟩
    have hend : run size ls n initial = ⟨.returning e, [], j, 0⟩ := hleads.run_eq rfl hcost
    rw [hend, Expr.ofLexemes, hread]
    cases rest with
    | nil =>
      simp only [outcome?, getElem?_of_drop hj, List.head?_nil]
      rfl
    | cons l tail =>
      simp only [outcome?, getElem?_of_drop hj, List.head?_cons]
      rfl

/-- The token is an operator between operands. -/
def IsOperator (t : Token) : Prop := ∃ op, t.additive? = some op ∨ t.multiplicative? = some op

theorem exists_reads_iff :
    (∃ e, Reads (sumOf (factor size budget)) ls e []) ↔
      Expr.Stage.run? budget (.before []) (ls.map Lexeme.token) = some (.after []) := by
  simp only [Expr.reads_sumOf_all_iff, Expr.exists_derives_iff]

/-- Sums with operators between them are a sum with the same budget, however many they are. -/
theorem exists_reads_flatMap {first : List Lexeme}
    (hfirst : ∃ e, Reads (sumOf (factor size budget)) first e [])
    (more : List (Lexeme × List Lexeme))
    (hmore : ∀ p ∈ more, IsOperator p.1.token ∧
      ∃ e, Reads (sumOf (factor size budget)) p.2 e []) :
    ∃ e, Reads (sumOf (factor size budget)) (first ++ more.flatMap fun p => p.1 :: p.2) e [] := by
  induction more generalizing first with
  | nil => simpa using hfirst
  | cons p more ih =>
    obtain ⟨⟨op, hop⟩, hp⟩ := hmore p List.mem_cons_self
    rw [List.flatMap_cons, ← List.append_assoc]
    refine ih (exists_reads_iff.2 ?_) fun q hq => hmore q (List.mem_cons_of_mem _ hq)
    rw [exists_reads_iff] at hfirst hp
    rw [List.map_append, List.map_cons]
    -- after the first sum nothing is pending, and the operator leads back to where it began
    refine Expr.run?_append_eq_some_iff.2 ⟨_, hfirst, Expr.run?_cons_eq_some_iff.2 ⟨_, ?_, hp⟩⟩
    exact hop.elim Expr.next?_additive Expr.next?_multiplicative

/-- A descent over lexemes ends within a number of steps linear in their number, with the expression
or the error that is read from them. Throughout, the cursor stays within the lexemes, the counter
is at most 257 and, until a failure, the number of signs and groups that the descent is in, and it
is never counted down from zero. Every call fails or returns; when it returns, the cursor has moved
forward and the counter is at most 256 and what it was at the call. So sums that are read with some
budget can follow each other, with operators between them, without using up more of it. -/
theorem calls_balanced (size : Nat) (ls : List Lexeme) :
    (run size ls (7 * ls.length + 6) initial).outcome? ls = some (Expr.ofLexemes size ls) ∧
      (∀ n, let s := run size ls n initial
        s.cursor ≤ ls.length ∧ s.depth ≤ 257 ∧ (¬s.Failed → s.depth = levels s.frames) ∧
          (s.Leaves → 0 < s.depth)) ∧
      (∀ n r, let s := run size ls n initial
        s.control = .calling r →
          (∃ m, (run size ls m s).Failed ∨ (run size ls m s).ReturnsTo s.frames) ∧
            ∀ m, let s' := run size ls m s
              s'.ReturnsTo s.frames → s.cursor < s'.cursor ∧ s'.cursor ≤ ls.length ∧
                s'.depth = s.depth ∧ s'.depth ≤ 256) ∧
      ∀ budget first (more : List (Lexeme × List Lexeme)),
        (∃ e, Reads (sumOf (factor size budget)) first e []) →
          (∀ p ∈ more, IsOperator p.1.token ∧
            ∃ e, Reads (sumOf (factor size budget)) p.2 e []) →
          ∃ e, Reads (sumOf (factor size budget))
            (first ++ more.flatMap fun p => p.1 :: p.2) e [] := by
  have hbalanced : ∀ n, Balanced ls (run size ls n initial) := fun n =>
    balanced_initial.after_run
  refine ⟨outcome?_run (Nat.le_refl _), fun n => ?_, fun n r hcall => ⟨?_, fun m h => ?_⟩, ?_⟩
  · have hs := hbalanced n
    exact ⟨hs.cursor_le, hs.depth_le, fun h => (hs.depth_eq h).1, hs.depth_pos⟩
  · exact exists_answer size List.suffix_rfl
  · obtain ⟨hcursor, hdepth, hle⟩ := (hbalanced n).of_returnsTo hcall h
    exact ⟨hcursor, (hbalanced n).after_run.cursor_le, hdepth, hdepth.trans_le hle⟩
  · exact fun budget first more hfirst hmore => exists_reads_flatMap hfirst more hmore

end KeypadCalc.Descent
