import KeypadCalc.Proofs.Parsing
import Mathlib.Data.List.DropRight

/-! The stages of reading tokens one by one. What has been read so far matters only through the
signs and parentheses that a factor would stand under and through whether a factor comes next or has
just ended. The grammar derives exactly the tokens that lead from the first stage to the end of a
factor under nothing, and a reader fails at the first token that does not go on. -/

namespace KeypadCalc

def Token.isSign : Token → Bool
  | plus | minus => true
  | _ => false

namespace Expr

/-- What is above the next factor once a factor has ended: the signs before that one end with it. -/
def settled (above : List Token) : List Token := above.dropWhile Token.isSign

/-- Where some tokens lead. `above` are the pending signs and open parentheses, innermost first. -/
inductive Stage
  | before (above : List Token)
  | after (above : List Token)
deriving DecidableEq

namespace Stage

def above : Stage → List Token
  | before above | after above => above

/-- The stage after one more token, if the token may come next. More than `limit` signs and
parentheses are not gone into. -/
def next? (limit : Nat) : Stage → Token → Option Stage
  | before above, t =>
    if limit < above.length then none
    else match t with
      | .number _ => some (after (settled above))
      | .plus | .minus | .leftParen => some (before (t :: above))
      | _ => none
  | after above, .plus | after above, .minus | after above, .times | after above, .divide
  | after above, .percent => some (before above)
  | after (_ :: outer), .rightParen => some (after (settled outer))
  | after _, _ => none

/-- The stage after some tokens, if each of them may come where it stands. -/
def run? (limit : Nat) (s : Stage) (ts : List Token) : Option Stage := ts.foldlM (next? limit) s

/-- What is wrong at a stage with the token that comes next, or with there being none. -/
def flaw? (limit : Nat) (s : Stage) : Option Token → Option Flaw
  | none =>
    match s with
    | before above => some (if limit < above.length then .tooDeep else .unexpectedEnd)
    | after [] => none
    | after (_ :: _) => some .unclosedParen
  | some t =>
    if (s.next? limit t).isSome then none
    else some <| match s with
      | before above => if limit < above.length then .tooDeep else .missingNumber t
      | after [] => .surplus t
      | after (_ :: _) => .missingParen t

end Stage

open Stage (next? run? flaw?)

variable {operator? : Token → Option BinaryOp} {operand : Reader} {size limit budget : Nat}
  {e left right : Expr} {l : Lexeme} {ls rest used : List Lexeme} {t : Token} {op : BinaryOp}
  {ts us above outer : List Token} {s s' : Stage} {error : SyntaxError}

/-! ### Steps -/

@[simp] theorem settled_nil : settled [] = [] := rfl

@[simp] theorem settled_settled : settled (settled above) = settled above :=
  List.dropWhile_idempotent Token.isSign above

theorem settled_of_isSign (ht : t.isSign = true) : settled (t :: above) = settled above :=
  List.dropWhile_cons_of_pos ht

@[simp] theorem settled_leftParen :
    settled (.leftParen :: above) = .leftParen :: above := rfl

theorem length_settled_le (above : List Token) : (settled above).length ≤ above.length :=
  (List.dropWhile_sublist _).length_le

theorem run?_nil : run? limit s [] = some s := rfl

theorem run?_cons : run? limit s (t :: ts) = (next? limit s t).bind (run? limit · ts) :=
  List.foldlM_cons ..

theorem run?_append : run? limit s (ts ++ us) = (run? limit s ts).bind (run? limit · us) :=
  List.foldlM_append ..

theorem run?_cons_eq_some_iff :
    run? limit s (t :: ts) = some s' ↔
      ∃ r, next? limit s t = some r ∧ run? limit r ts = some s' := by
  rw [run?_cons, Option.bind_eq_some_iff]

theorem run?_append_eq_some_iff :
    run? limit s (ts ++ us) = some s' ↔
      ∃ r, run? limit s ts = some r ∧ run? limit r us = some s' := by
  rw [run?_append, Option.bind_eq_some_iff]

theorem next?_number {v : Float} (h : above.length ≤ limit) :
    next? limit (.before above) (.number v) = some (.after (settled above)) :=
  if_neg (Nat.not_lt.2 h)

theorem next?_opening (ht : t.isSign = true ∨ t = .leftParen) (h : above.length ≤ limit) :
    next? limit (.before above) t = some (.before (t :: above)) := by
  have hle := Nat.not_lt.2 h
  rcases ht with ht | rfl
  · cases t <;> first | exact if_neg hle | cases ht
  · exact if_neg hle

theorem next?_additive (ht : t.additive? = some op) :
    next? limit (.after above) t = some (.before above) := by
  cases t <;> first | rfl | cases ht

theorem next?_multiplicative (ht : t.multiplicative? = some op) :
    next? limit (.after above) t = some (.before above) := by
  cases t <;> first | rfl | cases ht

/-- A token goes on exactly if nothing is wrong with it. -/
theorem flaw?_eq_none_iff : flaw? limit s (some t) = none ↔ ∃ r, next? limit s t = some r := by
  rw [← Option.isSome_iff_exists]
  simp only [flaw?, ite_eq_left_iff, reduceCtorEq, imp_false, not_not]

/-! ### Derivations -/

/-- Tokens that the grammar derives lead to the end of a factor. -/
theorem run?_of_derives {level : Level} (h : Derives level budget ts e) :
    ∀ above, above.length + budget ≤ limit →
      run? limit (.before above) ts = some (.after (settled above)) := by
  induction h with
  | number =>
    intro above hlimit
    exact run?_cons_eq_some_iff.2 ⟨_, next?_number (by omega), run?_nil⟩
  | positive _ ih | negative _ ih =>
    intro above hlimit
    refine run?_cons_eq_some_iff.2 ⟨_, next?_opening (.inl rfl) (by omega), ?_⟩
    rw [ih _ (by rw [List.length_cons]; omega), settled_of_isSign rfl]
  | paren _ ih =>
    intro above hlimit
    refine run?_cons_eq_some_iff.2 ⟨_, next?_opening (.inr rfl) (by omega), ?_⟩
    exact run?_append_eq_some_iff.2 ⟨_, ih _ (by rw [List.length_cons]; omega), rfl⟩
  | ofFactor _ ih | ofProduct _ ih => exact ih
  | product _ hop _ ih ih' =>
    intro above hlimit
    have hle := length_settled_le above
    refine run?_append_eq_some_iff.2 ⟨_, ih above hlimit, ?_⟩
    refine run?_cons_eq_some_iff.2 ⟨_, next?_multiplicative hop, ?_⟩
    rw [ih' _ (by omega), settled_settled]
  | sum _ hop _ ih ih' =>
    intro above hlimit
    have hle := length_settled_le above
    refine run?_append_eq_some_iff.2 ⟨_, ih above hlimit, ?_⟩
    refine run?_cons_eq_some_iff.2 ⟨_, next?_additive hop, ?_⟩
    rw [ih' _ (by omega), settled_settled]

theorem run?_of_reads {r : Reader} {level : Level} (hr : Sound r (Derives level budget))
    (h : Reads r ls e rest) (hlimit : above.length + budget ≤ limit) :
    ∃ used, ls = used ++ rest ∧
      run? limit (.before above) (used.map Lexeme.token) = some (.after (settled above)) := by
  obtain ⟨used, rfl, hused⟩ := hr ls e rest h
  exact ⟨used, rfl, run?_of_derives hused above hlimit⟩

/-! ### Where readers stop -/

/-- Extending either stops at once or takes an operator and an operand. -/
theorem Extends.cases (h : Extends operator? operand left ls e rest) :
    (Stops operator? ls ∧ e = left ∧ rest = ls) ∨
      ∃ l tail op right after, ls = l :: tail ∧ operator? l.token = some op ∧
        Reads operand tail right after ∧
        Extends operator? operand (.binary op left right) after e rest := by
  cases ls with
  | nil =>
    have hstop : Stops operator? [] := by simp [Stops]
    exact .inl ⟨hstop, (extends_of_stop hstop).1 h⟩
  | cons l tail =>
    cases hop : operator? l.token with
    | none =>
      have hstop : Stops operator? (l :: tail) := by simpa [Stops] using hop
      exact .inl ⟨hstop, (extends_of_stop hstop).1 h⟩
    | some op =>
      obtain ⟨right, after, hright, hmore⟩ := (extends_of_operator hop).1 h
      exact .inr ⟨l, tail, op, right, after, rfl, hop, hright, hmore⟩

/-- What extending leaves begins with no operator, and with nothing else that its operands never
leave. -/
theorem stops_of_extends {other? : Token → Option BinaryOp}
    (hoperand : ∀ ls e rest, Reads operand ls e rest → Stops other? rest) (n : Nat) :
    ∀ ls left, ls.length ≤ n → Extends operator? operand left ls e rest → Stops other? ls →
      Stops operator? rest ∧ Stops other? rest := by
  induction n with
  | zero =>
    intro ls left hn h hother
    obtain ⟨hstop, -, rfl⟩ | ⟨l, tail, -, -, -, rfl, -⟩ := h.cases
    · exact ⟨hstop, hother⟩
    · simp at hn
  | succ n ih =>
    intro ls left hn h hother
    obtain ⟨hstop, -, rfl⟩ | ⟨l, tail, op, right, after, rfl, -, hright, hmore⟩ := h.cases
    · exact ⟨hstop, hother⟩
    · have hlt : after.length < tail.length := hright.1
      rw [List.length_cons] at hn
      exact ih after _ (by omega) hmore (hoperand _ _ _ hright)

theorem stops_of_reads_chain {other? : Token → Option BinaryOp}
    (hoperand : ∀ ls e rest, Reads operand ls e rest → Stops other? rest)
    (h : Reads (chain operator? operand) ls e rest) :
    Stops operator? rest ∧ Stops other? rest := by
  obtain ⟨left, after, hleft, hmore⟩ := reads_chain.1 h
  exact stops_of_extends hoperand _ after left (Nat.le_refl _) hmore (hoperand _ _ _ hleft)

/-- No operator follows a sum that has been read. -/
theorem stops_of_reads_sumOf (h : Reads (sumOf operand) ls e rest) :
    Stops Token.additive? rest ∧ Stops Token.multiplicative? rest := by
  have hnone : ∀ ls e rest, Reads operand ls e rest → Stops (fun _ => none) rest :=
    fun _ _ _ _ _ _ => rfl
  exact stops_of_reads_chain (fun _ _ _ hproduct => (stops_of_reads_chain hnone hproduct).1) h

/-! ### Where readers fail -/

/-- An error stands at the first of the lexemes that does not go on, or at their end. -/
def FailsAt (limit size : Nat) (s : Stage) (ls : List Lexeme) (error : SyntaxError) : Prop :=
  ∃ used rest s', ls = used ++ rest ∧ run? limit s (used.map Lexeme.token) = some s' ∧
    flaw? limit s' (rest.head?.map Lexeme.token) = some error.flaw ∧
    error.position = start size rest

theorem failsAt_self (hflaw : flaw? limit s (ls.head?.map Lexeme.token) = some error.flaw)
    (hposition : error.position = start size ls) : FailsAt limit size s ls error :=
  ⟨[], ls, s, rfl, run?_nil, hflaw, hposition⟩

theorem FailsAt.append (hused : run? limit s (used.map Lexeme.token) = some s')
    (h : FailsAt limit size s' rest error) : FailsAt limit size s (used ++ rest) error := by
  obtain ⟨more, rest, r, rfl, hmore, hflaw, hposition⟩ := h
  refine ⟨used ++ more, rest, r, (List.append_assoc ..).symm, ?_, hflaw, hposition⟩
  rw [List.map_append]
  exact run?_append_eq_some_iff.2 ⟨s', hused, hmore⟩

theorem FailsAt.cons (hl : next? limit s l.token = some s') (h : FailsAt limit size s' rest error) :
    FailsAt limit size s (l :: rest) error := by
  have hrun : run? limit s ([l].map Lexeme.token) = some s' :=
    run?_cons_eq_some_iff.2 ⟨s', hl, run?_nil⟩
  exact FailsAt.append hrun h

/-- A reader reads a factor, and perhaps more, where a factor comes next. -/
structure Keeps (limit size : Nat) (above : List Token) (r : Reader) : Prop where
  reads : ∀ ls e rest, Reads r ls e rest → ∃ used, ls = used ++ rest ∧
    run? limit (.before above) (used.map Lexeme.token) = some (.after (settled above))
  fails : ∀ ls error, r ls = .error error → FailsAt limit size (.before above) ls error

theorem failsAt_extend (hoperand : Keeps limit size above operand)
    (hsettled : settled above = above)
    (hoperator : ∀ t op, operator? t = some op →
      next? limit (.after above) t = some (.before above)) (n : Nat) :
    ∀ ls left, ls.length ≤ n → extend operator? operand left ls = .error error →
      FailsAt limit size (.after above) ls error := by
  induction n with
  | zero =>
    intro ls left hn h
    obtain rfl := List.eq_nil_of_length_eq_zero (Nat.le_zero.1 hn)
    simp [extend] at h
  | succ n ih =>
    intro ls left hn h
    obtain ⟨l, tail, op, rfl, hop, hfail | ⟨right, after, hright, hfail⟩⟩ :=
      extend_eq_error h
    · exact FailsAt.cons (hoperator _ _ hop) (hoperand.fails _ _ hfail)
    · refine FailsAt.cons (hoperator _ _ hop) ?_
      obtain ⟨used, rfl, hused⟩ := hoperand.reads _ _ _ hright
      rw [hsettled] at hused
      rw [List.length_cons, List.length_append] at hn
      exact FailsAt.append hused (ih after _ (by omega) hfail)

theorem Keeps.chain (hoperand : Keeps limit size above operand) (hsettled : settled above = above)
    (hoperator : ∀ t op, operator? t = some op →
      next? limit (.after above) t = some (.before above))
    (hreads : ∀ ls e rest, Reads (chain operator? operand) ls e rest → ∃ used, ls = used ++ rest ∧
      run? limit (.before above) (used.map Lexeme.token) = some (.after (settled above))) :
    Keeps limit size above (chain operator? operand) := by
  refine ⟨hreads, fun ls error h => ?_⟩
  rcases chain_eq_error h with hfail | ⟨left, after, hleft, hfail⟩
  · exact hoperand.fails _ _ hfail
  · obtain ⟨used, rfl, hused⟩ := hoperand.reads _ _ _ hleft
    rw [hsettled] at hused
    exact FailsAt.append hused
      (failsAt_extend hoperand hsettled hoperator _ after left (Nat.le_refl _) hfail)

theorem keeps_sumOf (hfactor : Keeps limit size above (factor size budget))
    (hsettled : settled above = above) (hlimit : above.length + budget ≤ limit) :
    Keeps limit size above (sumOf (factor size budget)) := by
  have hproduct : Sound (Expr.chain Token.multiplicative? (factor size budget))
      (Derives .product budget) :=
    sound_chain (sound_factor size budget) (fun _ _ => .ofFactor)
      fun _ _ _ _ _ _ hts hop hus => .product hts hop hus
  refine Keeps.chain (hfactor.chain hsettled ?_ fun ls e rest h => ?_) hsettled ?_
    fun ls e rest h => ?_
  · exact fun _ _ => next?_multiplicative
  · exact run?_of_reads hproduct h hlimit
  · exact fun _ _ => next?_additive
  · exact run?_of_reads (sound_sumOf (sound_factor size budget)) h hlimit

/-- After a sum under a parenthesis an error stands at what is not the closing one. -/
theorem failsAt_closed {e' : Expr}
    (hstops : Stops Token.additive? ls ∧ Stops Token.multiplicative? ls)
    (h : closed size e' ls = .error error) :
    FailsAt limit size (.after (.leftParen :: above)) ls error := by
  cases ls with
  | nil =>
    cases h
    exact failsAt_self rfl rfl
  | cons l tail =>
    have hadd : l.token.additive? = none := hstops.1 l rfl
    have hmul : l.token.multiplicative? = none := hstops.2 l rfl
    simp only [closed] at h
    split at h
    · cases h
    · rename_i hl
      cases h
      refine failsAt_self ?_ rfl
      cases htoken : l.token <;>
        simp [htoken, Token.additive?, Token.multiplicative?] at hadd hmul hl
      all_goals simp [flaw?, next?, htoken]

/-- A factor fails where none begins. -/
theorem failsAt_missing (hle : above.length ≤ limit)
    (hls : ∀ l ∈ ls.head?, ¬(l.token.isSign = true ∨ l.token = .leftParen))
    (h : factor size budget ls = .error error) : FailsAt limit size (.before above) ls error := by
  have hnot : ¬limit < above.length := Nat.not_lt.2 hle
  cases ls with
  | nil =>
    rw [factor_nil] at h
    cases h
    exact failsAt_self (by simp [flaw?, hnot]) rfl
  | cons l tail =>
    have hl := hls l rfl
    cases htoken : l.token with
    | number v =>
      rw [factor_number htoken] at h
      cases h
    | plus | minus | leftParen => simp [htoken, Token.isSign] at hl
    | _ =>
      rw [factor_other (by simp [htoken]) (by simp [htoken])] at h
      cases h
      exact failsAt_self (by simp [flaw?, next?, htoken, hnot]) rfl

/-- What would open one more level is the last that is read, and the error stands after it. -/
theorem failsAt_tooDeep (hlimit : above.length = limit)
    (hl : l.token.isSign = true ∨ l.token = .leftParen)
    (h : factor size 0 (l :: ls) = .error error) :
    FailsAt limit size (.before above) (l :: ls) error := by
  have hdeep : limit < above.length + 1 := by omega
  refine FailsAt.cons (next?_opening hl hlimit.le) ?_
  have hopens : l.token = .plus ∨ l.token = .minus ∨ l.token = .leftParen := by
    cases htoken : l.token <;> simp [htoken, Token.isSign] at hl ⊢
  rw [factor_zero hopens] at h
  cases h
  refine failsAt_self ?_ rfl
  cases ls <;> simp [flaw?, next?, hdeep]

/-- One level further in, what is read and where it fails is what it is there. -/
theorem failsAt_inside (hinner : Keeps limit size (l.token :: above) (factor size budget))
    (hlimit : above.length + (budget + 1) ≤ limit)
    (hl : l.token.isSign = true ∨ l.token = .leftParen)
    (h : factor size (budget + 1) (l :: ls) = .error error) :
    FailsAt limit size (.before above) (l :: ls) error := by
  refine FailsAt.cons (next?_opening hl (by omega)) ?_
  cases htoken : l.token with
  | plus => exact htoken ▸ hinner.fails _ _ (factor_sign_eq_error (.inl htoken) h)
  | minus => exact htoken ▸ hinner.fails _ _ (factor_sign_eq_error (.inr htoken) h)
  | leftParen =>
    rw [htoken] at hinner
    have hsum := keeps_sumOf hinner rfl (by rw [List.length_cons]; omega)
    rcases factor_leftParen_eq_error htoken h with hfail | ⟨e, after, he, hfail⟩
    · exact hsum.fails _ _ hfail
    · obtain ⟨used, rfl, hused⟩ := hsum.reads _ _ _ he
      exact FailsAt.append hused (failsAt_closed (stops_of_reads_sumOf he) hfail)
  | _ => simp [htoken, Token.isSign] at hl

theorem opens_or (ls : List Lexeme) :
    (∃ l tail, ls = l :: tail ∧ (l.token.isSign = true ∨ l.token = .leftParen)) ∨
      ∀ l ∈ ls.head?, ¬(l.token.isSign = true ∨ l.token = .leftParen) := by
  cases ls with
  | nil => exact .inr (by simp)
  | cons l tail =>
    by_cases hl : l.token.isSign = true ∨ l.token = .leftParen
    · exact .inl ⟨l, tail, rfl, hl⟩
    · exact .inr (by simpa using hl)

theorem keeps_factor (size budget : Nat) :
    ∀ above, above.length + budget = limit → Keeps limit size above (factor size budget) := by
  induction budget with
  | zero =>
    intro above hlimit
    refine ⟨fun ls e rest h => run?_of_reads (sound_factor size 0) h hlimit.le, ?_⟩
    intro ls error h
    rcases opens_or ls with ⟨l, tail, rfl, hl⟩ | hls
    · exact failsAt_tooDeep hlimit hl h
    · exact failsAt_missing hlimit.le hls h
  | succ budget ih =>
    intro above hlimit
    refine ⟨fun ls e rest h => run?_of_reads (sound_factor size _) h hlimit.le, ?_⟩
    intro ls error h
    rcases opens_or ls with ⟨l, tail, rfl, hl⟩ | hls
    · exact failsAt_inside (ih _ (by rw [List.length_cons]; omega)) hlimit.le hl h
    · exact failsAt_missing (by omega) hls h

end Expr

end KeypadCalc
