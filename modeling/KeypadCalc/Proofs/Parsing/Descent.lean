import KeypadCalc.Expr.Parser

/-! Reading an expression with a cursor and a counter. A descent calls itself for sums, products and
factors, keeps the calls that wait in a list of frames, and counts the signs and groups that it is
in: up before it goes into one and down when it comes out, so that an error leaves the counter as it
is. This module says what each step of a descent keeps: the counter is the number of signs and
groups among the frames, and every step is paid for by a lexeme or by a call. -/

namespace KeypadCalc

/-- Whether a token is a sign, and then whether it is a minus. -/
def Token.sign? : Token → Option Bool
  | plus => some false
  | minus => some true
  | _ => none

namespace Descent

/-- The two kinds of operands with operators between them. -/
inductive Chain
  | sum
  | product
deriving DecidableEq

/-- What is called: a chain of operands, a factor with the signs before it, or one without signs. -/
inductive Routine
  | chain (c : Chain)
  | signed
  | primary
deriving DecidableEq

def Chain.operator? : Chain → Token → Option BinaryOp
  | sum => Token.additive?
  | product => Token.multiplicative?

def Chain.operand : Chain → Routine
  | sum => .chain .product
  | product => .signed

/-- What a call that waits does next: it joins an operand to what stands before it, applies a sign,
or closes a group. -/
inductive Frame
  | operand (c : Chain) (left : Option (Expr × BinaryOp))
  | sign (negative : Bool)
  | group
deriving DecidableEq

/-- The frame counts as a level of nesting. -/
def Frame.isLevel : Frame → Bool
  | operand .. => false
  | sign _ | group => true

inductive Control
  | calling (r : Routine)
  | returning (e : Expr)
  | failed (error : SyntaxError)
deriving DecidableEq

end Descent

open Descent (Chain Routine Frame Control)

/-- A descent part way: what it does next, the frames of the calls that wait, innermost first, the
number of lexemes before the cursor, and the counter. -/
structure Descent where
  control : Control
  frames : List Frame
  cursor : Nat
  depth : Nat
deriving DecidableEq

namespace Descent

/-- A whole sum is called with nothing read. -/
def initial : Descent := ⟨.calling (.chain .sum), [], 0, 0⟩

/-- Counts one level more and calls, unless that is one too many. -/
def enter (size : Nat) (ls : List Lexeme) (r : Routine) (k : List Frame) (cursor depth : Nat) :
    Descent :=
  if Expr.maxDepth < depth + 1 then
    ⟨.failed ⟨Expr.start size (ls.drop cursor), .tooDeep⟩, k, cursor, depth + 1⟩
  else ⟨.calling r, k, cursor, depth + 1⟩

/-- An operand joined to what stands before it. -/
def joined : Option (Expr × BinaryOp) → Expr → Expr
  | none, e => e
  | some (left, op), e => .binary op left e

def signed (negative : Bool) (e : Expr) : Expr := if negative then .negative e else .positive e

/-- One step of a descent over lexemes of a text of length `size`. -/
def step (size : Nat) (ls : List Lexeme) : Descent → Option Descent
  | ⟨.calling (.chain c), k, i, d⟩ => some ⟨.calling c.operand, .operand c none :: k, i, d⟩
  | ⟨.calling .signed, k, i, d⟩ =>
    match ls[i]?.bind fun l => l.token.sign? with
    | some negative => some (enter size ls .signed (.sign negative :: k) (i + 1) d)
    | none => some ⟨.calling .primary, k, i, d⟩
  | ⟨.calling .primary, k, i, d⟩ =>
    match ls[i]? with
    | none => some ⟨.failed ⟨size, .unexpectedEnd⟩, k, i, d⟩
    | some l =>
      match l.token with
      | .number v => some ⟨.returning (.number v), k, i + 1, d⟩
      | .leftParen => some (enter size ls (.chain .sum) (.group :: k) (i + 1) d)
      | other => some ⟨.failed ⟨l.position, .missingNumber other⟩, k, i, d⟩
  | ⟨.returning e, .operand c left :: k, i, d⟩ =>
    match ls[i]?.bind fun l => c.operator? l.token with
    | some op => some ⟨.calling c.operand, .operand c (some (joined left e, op)) :: k, i + 1, d⟩
    | none => some ⟨.returning (joined left e), k, i, d⟩
  | ⟨.returning e, .sign negative :: k, i, d⟩ => some ⟨.returning (signed negative e), k, i, d - 1⟩
  | ⟨.returning e, .group :: k, i, d⟩ =>
    match ls[i]? with
    | none => some ⟨.failed ⟨size, .unclosedParen⟩, k, i, d - 1⟩
    | some l =>
      if l.token = .rightParen then some ⟨.returning e, k, i + 1, d - 1⟩
      else some ⟨.failed ⟨l.position, .missingParen l.token⟩, k, i, d - 1⟩
  | ⟨.returning _, [], _, _⟩ => none
  | ⟨.failed _, _, _, _⟩ => none

/-- A descent after `n` steps, or where it ends before. -/
def run (size : Nat) (ls : List Lexeme) : Nat → Descent → Descent
  | 0, s => s
  | n + 1, s =>
    match step size ls s with
    | none => s
    | some s' => run size ls n s'

/-- What has come of a descent that has ended; no lexeme may be left. -/
def outcome? (ls : List Lexeme) : Descent → Option (Except SyntaxError Expr)
  | ⟨.failed error, _, _, _⟩ => some (.error error)
  | ⟨.returning e, [], i, _⟩ =>
    match ls[i]? with
    | none => some (.ok e)
    | some l => some (.error ⟨l.position, .surplus l.token⟩)
  | _ => none

def Failed (s : Descent) : Prop := ∃ error, s.control = .failed error

/-- A call for which the frames `k` wait has succeeded. -/
def ReturnsTo (k : List Frame) (s : Descent) : Prop :=
  (∃ e, s.control = .returning e) ∧ s.frames = k

/-- The next step counts down. -/
def Leaves (s : Descent) : Prop :=
  (∃ e, s.control = .returning e) ∧ ∃ f k, s.frames = f :: k ∧ f.isLevel = true

/-- The number of signs and groups among the frames. -/
def levels (k : List Frame) : Nat := k.countP Frame.isLevel

variable {size n : Nat} {ls : List Lexeme} {s s' : Descent} {k : List Frame} {f : Frame}
  {r r' : Routine} {i d : Nat}

/-! ### Steps -/

/-- What a step does to the frames, the cursor and the counter. -/
inductive Moves (ls : List Lexeme) : Descent → Descent → Prop
  | call {c : Chain} {k : List Frame} {i d : Nat} :
      Moves ls ⟨.calling (.chain c), k, i, d⟩ ⟨.calling c.operand, .operand c none :: k, i, d⟩
  | unsigned {k : List Frame} {i d : Nat} :
      Moves ls ⟨.calling .signed, k, i, d⟩ ⟨.calling .primary, k, i, d⟩
  | enter {r r' : Routine} {f : Frame} {k : List Frame} {i d : Nat} : f.isLevel = true →
      i < ls.length → d < Expr.maxDepth →
        Moves ls ⟨.calling r, k, i, d⟩ ⟨.calling r', f :: k, i + 1, d + 1⟩
  | number {e : Expr} {r : Routine} {k : List Frame} {i d : Nat} : i < ls.length →
      Moves ls ⟨.calling r, k, i, d⟩ ⟨.returning e, k, i + 1, d⟩
  | next {c : Chain} {left left' : Option (Expr × BinaryOp)} {e : Expr} {k : List Frame}
      {i d : Nat} : i < ls.length →
        Moves ls ⟨.returning e, .operand c left :: k, i, d⟩
          ⟨.calling c.operand, .operand c left' :: k, i + 1, d⟩
  | finish {c : Chain} {left : Option (Expr × BinaryOp)} {e e' : Expr} {k : List Frame}
      {i d : Nat} : Moves ls ⟨.returning e, .operand c left :: k, i, d⟩ ⟨.returning e', k, i, d⟩
  | leave {f : Frame} {e e' : Expr} {k : List Frame} {i j d : Nat} : f.isLevel = true →
      i = j ∨ i < ls.length ∧ j = i + 1 →
        Moves ls ⟨.returning e, f :: k, i, d⟩ ⟨.returning e', k, j, d - 1⟩
  | refuse {r : Routine} {error : SyntaxError} {k k' : List Frame} {i j d d' : Nat} :
      i = j ∨ i < ls.length ∧ j = i + 1 → d' ≤ d + 1 →
        Moves ls ⟨.calling r, k, i, d⟩ ⟨.failed error, k', j, d'⟩
  | unclosed {e : Expr} {f : Frame} {error : SyntaxError} {k : List Frame} {i d : Nat} :
      f.isLevel = true → Moves ls ⟨.returning e, f :: k, i, d⟩ ⟨.failed error, k, i, d - 1⟩

theorem moves_enter (hf : f.isLevel = true) (hi : i < ls.length) :
    Moves ls ⟨.calling r, k, i, d⟩ (enter size ls r' (f :: k) (i + 1) d) := by
  unfold enter
  split
  · exact .refuse (.inr ⟨hi, rfl⟩) (Nat.le_refl _)
  · rename_i hle
    exact .enter hf hi (by omega)

theorem lt_of_bind {α : Type} {g : Lexeme → Option α} {a : α} (h : ls[i]?.bind g = some a) :
    i < ls.length := by
  obtain ⟨l, hl, -⟩ := Option.bind_eq_some_iff.1 h
  exact (List.getElem?_eq_some_iff.1 hl).1

theorem moves_of_step (h : step size ls s = some s') : Moves ls s s' := by
  fun_cases step size ls s <;>
    simp only [step, *, ↓reduceIte, reduceCtorEq, Option.some.injEq] at h <;> subst h
  case case1 => exact .call
  case case2 hsign => exact moves_enter rfl (lt_of_bind hsign)
  case case3 => exact .unsigned
  case case5 hl _ _ => exact .number (List.getElem?_eq_some_iff.1 hl).1
  case case6 hl _ => exact moves_enter rfl (List.getElem?_eq_some_iff.1 hl).1
  case case8 hop => exact .next (lt_of_bind hop)
  case case9 => exact .finish
  case case10 => exact .leave rfl (.inl rfl)
  case case12 hl _ => exact .leave rfl (.inr ⟨(List.getElem?_eq_some_iff.1 hl).1, rfl⟩)
  case case11 | case13 => exact .unclosed rfl
  case case4 | case7 => exact .refuse (.inl rfl) (Nat.le_succ _)

theorem Moves.not_failed (h : Moves ls s s') : ¬s.Failed := by
  rintro ⟨error, herror⟩
  cases h <;> cases herror

/-- A descent stops when it has failed, and when what has been called first returns. -/
theorem step_eq_none (h : step size ls s = none) : s.Failed ∨ s.ReturnsTo [] := by
  fun_cases step size ls s <;> simp only [step, *, ↓reduceIte, reduceCtorEq] at h
  · exact .inr ⟨⟨_, rfl⟩, rfl⟩
  · exact .inl ⟨_, rfl⟩

theorem run_succ (h : step size ls s = some s') : run size ls (n + 1) s = run size ls n s' := by
  rw [run, h]

theorem run_of_step_eq_none (h : step size ls s = none) : run size ls n s = s := by
  cases n with
  | zero => rfl
  | succ n => rw [run, h]

theorem run_add (m n : Nat) (s : Descent) :
    run size ls (m + n) s = run size ls n (run size ls m s) := by
  induction m generalizing s with
  | zero => rw [Nat.zero_add, run]
  | succ m ih =>
    rw [Nat.succ_add]
    cases hstep : step size ls s with
    | none => simp only [run_of_step_eq_none hstep]
    | some s' => rw [run_succ hstep, run_succ hstep, ih]

/-- What every step keeps, a whole run keeps. -/
theorem run_induction {P : Descent → Prop} (hmove : ∀ {s s'}, Moves ls s s' → P s → P s')
    (hs : P s) : P (run size ls n s) := by
  induction n generalizing s with
  | zero => exact hs
  | succ n ih =>
    cases hstep : step size ls s with
    | none => rwa [run_of_step_eq_none hstep]
    | some s' =>
      rw [run_succ hstep]
      exact ih (hmove (moves_of_step hstep) hs)

/-! ### The counter -/

theorem levels_cons (hf : f.isLevel = true) : levels (f :: k) = levels k + 1 :=
  List.countP_cons_of_pos hf

/-- Until it fails, a descent counts the levels that it is in, and they are within the limit. -/
structure Balanced (ls : List Lexeme) (s : Descent) : Prop where
  cursor_le : s.cursor ≤ ls.length
  depth_le : s.depth ≤ Expr.maxDepth + 1
  depth_eq : ¬s.Failed → s.depth = levels s.frames ∧ levels s.frames ≤ Expr.maxDepth

theorem balanced_of_levels (hi : s.cursor ≤ ls.length) (hdepth : s.depth = levels s.frames)
    (hlevels : levels s.frames ≤ Expr.maxDepth) : Balanced ls s :=
  ⟨hi, by omega, fun _ => ⟨hdepth, hlevels⟩⟩

theorem balanced_initial : Balanced ls initial :=
  balanced_of_levels (Nat.zero_le _) rfl (Nat.zero_le _)

theorem Balanced.move (hs : Balanced ls s) (h : Moves ls s s') : Balanced ls s' := by
  obtain ⟨hdepth, hlevels⟩ := hs.depth_eq h.not_failed
  have hcursor := hs.cursor_le
  cases h with
  | call | unsigned | finish => exact balanced_of_levels hcursor hdepth hlevels
  | number hi | next hi => exact balanced_of_levels hi hdepth hlevels
  | enter hf hi hlt =>
    refine balanced_of_levels hi ?_ ?_ <;> simp only [levels_cons hf] at * <;> omega
  | leave hf hj =>
    refine balanced_of_levels ?_ ?_ ?_ <;> simp only [levels_cons hf] at * <;> omega
  | refuse hj hd =>
    refine ⟨?_, ?_, fun h => absurd ⟨_, rfl⟩ h⟩ <;> dsimp only at * <;> omega
  | unclosed =>
    refine ⟨hcursor, ?_, fun h => absurd ⟨_, rfl⟩ h⟩
    dsimp only at *
    omega

theorem Balanced.after_run (hs : Balanced ls s) : Balanced ls (run size ls n s) :=
  run_induction (fun h hs => hs.move h) hs

theorem Balanced.depth_pos (hs : Balanced ls s) (h : s.Leaves) : 0 < s.depth := by
  obtain ⟨⟨e, he⟩, f, k, hk, hf⟩ := h
  obtain ⟨hdepth, -⟩ := hs.depth_eq (by simp [Failed, he])
  rw [hdepth, hk, levels_cons hf]
  exact Nat.succ_pos _

/-! ### The cursor -/

/-- How far the cursor has to have come when a call that is under way returns. -/
def passed (s : Descent) : Nat :=
  match s.control with
  | .returning _ => s.cursor
  | .calling _ | .failed _ => s.cursor + 1

theorem passed_le (h : Moves ls s s') : passed s ≤ passed s' := by
  cases h <;> simp only [passed] <;> omega

theorem passed_le_run (size : Nat) (ls : List Lexeme) (n : Nat) (s : Descent) :
    passed s ≤ passed (run size ls n s) :=
  run_induction (fun h hs => Nat.le_trans hs (passed_le h)) (Nat.le_refl (passed s))

/-! ### The end -/

def Routine.weight : Routine → Nat
  | primary => 1
  | signed => 2
  | chain .product => 4
  | chain .sum => 6

/-- A bound on the steps that are left: a lexeme pays for the calls that may come after it. -/
def cost (ls : List Lexeme) (s : Descent) : Nat :=
  match s.control with
  | .calling r => 7 * (ls.length - s.cursor) + r.weight + s.frames.length
  | .returning _ => 7 * (ls.length - s.cursor) + s.frames.length
  | .failed _ => 0

theorem weight_pos (r : Routine) : 0 < r.weight := by
  rcases r with (_ | _) | _ | _ <;> decide

theorem weight_le (r : Routine) : r.weight ≤ 6 := by
  rcases r with (_ | _) | _ | _ <;> decide

theorem weight_operand (c : Chain) : c.operand.weight + 2 = (Routine.chain c).weight := by
  cases c <;> rfl

theorem cost_lt (h : Moves ls s s') : cost ls s' < cost ls s := by
  cases h with
  | @call c =>
    have hweight := weight_operand c
    simp only [cost, List.length_cons]
    omega
  | unsigned => simp only [cost, Routine.weight]; omega
  | @enter r r' =>
    have hpos := weight_pos r
    have hle := weight_le r'
    simp only [cost, List.length_cons]
    omega
  | number => simp only [cost]; omega
  | @next c =>
    have hle := weight_le c.operand
    simp only [cost, List.length_cons]
    omega
  | finish => simp only [cost, List.length_cons]; omega
  | leave => simp only [cost, List.length_cons]; omega
  | @refuse r =>
    have hpos := weight_pos r
    simp only [cost]
    omega
  | unclosed => simp only [cost, List.length_cons]; omega

/-- A run goes on for no more steps than it costs. -/
theorem step_run_eq_none (hn : cost ls s ≤ n) : step size ls (run size ls n s) = none := by
  induction n generalizing s with
  | zero =>
    cases hstep : step size ls s with
    | none => exact hstep
    | some s' => exact absurd (cost_lt (moves_of_step hstep)) (by omega)
  | succ n ih =>
    cases hstep : step size ls s with
    | none => rwa [run_of_step_eq_none hstep]
    | some s' =>
      have hlt := cost_lt (moves_of_step hstep)
      rw [run_succ hstep]
      exact ih (by omega)

/-- While a call is under way, its frames wait below those of the calls that it makes. -/
theorem suffix_move (h : Moves ls s s') (hk : k <:+ s.frames) (hs : ¬s.ReturnsTo k) :
    s'.Failed ∨ k <:+ s'.frames := by
  cases h with
  | call | enter => exact .inr (hk.trans (List.suffix_cons ..))
  | unsigned | number => exact .inr hk
  | refuse | unclosed => exact .inl ⟨_, rfl⟩
  | next =>
    rcases List.suffix_cons_iff.1 hk with rfl | hk
    · exact absurd ⟨⟨_, rfl⟩, rfl⟩ hs
    · exact .inr (hk.trans (List.suffix_cons ..))
  | finish | leave =>
    rcases List.suffix_cons_iff.1 hk with rfl | hk
    · exact absurd ⟨⟨_, rfl⟩, rfl⟩ hs
    · exact .inr hk

/-- A call comes to an end: it fails or returns to the frames that wait for it. -/
theorem exists_answer (size : Nat) (hk : k <:+ s.frames) :
    ∃ n, (run size ls n s).Failed ∨ (run size ls n s).ReturnsTo k := by
  induction hcost : cost ls s using Nat.strongRecOn generalizing s with
  | ind c ih =>
    by_cases hreturns : s.ReturnsTo k
    · exact ⟨0, .inr hreturns⟩
    cases hstep : step size ls s with
    | none =>
      rcases step_eq_none hstep with hfailed | ⟨hcontrol, hframes⟩
      · exact ⟨0, .inl hfailed⟩
      · rw [hframes] at hk
        exact absurd ⟨hcontrol, hframes.trans (List.suffix_nil.1 hk).symm⟩ hreturns
    | some s' =>
      have hmove := moves_of_step hstep
      rcases suffix_move hmove hk hreturns with hfailed | hk'
      · exact ⟨1, .inl (by rwa [run_succ hstep])⟩
      · obtain ⟨n, hn⟩ := ih _ (hcost ▸ cost_lt hmove) hk' rfl
        exact ⟨n + 1, by rwa [run_succ hstep]⟩

/-- A call that returns has taken a lexeme, and the counter is what it was at the call. -/
theorem Balanced.of_returnsTo (hs : Balanced ls s) (hcall : s.control = .calling r)
    (h : (run size ls n s).ReturnsTo s.frames) :
    s.cursor < (run size ls n s).cursor ∧ (run size ls n s).depth = s.depth ∧
      s.depth ≤ Expr.maxDepth := by
  obtain ⟨⟨e, he⟩, hframes⟩ := h
  have hs' : Balanced ls (run size ls n s) := hs.after_run
  obtain ⟨hdepth, hlevels⟩ := hs.depth_eq (by simp [Failed, hcall])
  obtain ⟨hdepth', -⟩ := hs'.depth_eq (by simp [Failed, he])
  have hpassed := passed_le_run size ls n s
  simp only [passed, hcall, he] at hpassed
  exact ⟨hpassed, by rw [hdepth', hframes, hdepth], hdepth ▸ hlevels⟩

end Descent

end KeypadCalc
