import KeypadCalc.Proofs.Parsing.Stages
import KeypadCalc.Proofs.Tokens

/-! Where syntax errors stand. Tokens that lead to some stage within the limit of nesting can always
be continued to an expression, and tokens that lead to none begin no expression. Main statement: an
error stands at the first token that no expression goes on with, unless the limit is exceeded. -/

namespace KeypadCalc.Expr

open Stage (next? run? flaw?)

variable {size limit limit' : Nat} {e : Expr} {l : Lexeme} {ls : List Lexeme} {t : Token} {w : Text}
  {ts us above : List Token} {s s' : Stage} {error : SyntaxError}

/-! ### What a step keeps -/

/-- The four ways to go on. -/
theorem next?_cases (h : next? limit s t = some s') :
    (∃ above, s = .before above ∧ above.length ≤ limit ∧
      ((t.isSign = true ∨ t = .leftParen) ∧ s' = .before (t :: above) ∨
        (∃ v, t = .number v) ∧ s' = .after (settled above))) ∨
    (∃ above, s = .after above ∧ (∃ op, t.additive? = some op ∨ t.multiplicative? = some op) ∧
      s' = .before above) ∨
    ∃ p outer, s = .after (p :: outer) ∧ t = .rightParen ∧ s' = .after (settled outer) := by
  cases s with
  | before above =>
    left
    unfold next? at h
    simp only at h
    split at h
    · cases h
    · rename_i hle
      refine ⟨above, rfl, Nat.not_lt.1 hle, ?_⟩
      cases t <;> simp_all [Token.isSign]
  | after above =>
    right
    cases t with
    | plus | minus | times | divide | percent =>
      cases h
      exact .inl ⟨above, rfl, ⟨_, by simp [Token.additive?, Token.multiplicative?]; rfl⟩, rfl⟩
    | rightParen =>
      cases above with
      | nil => cases h
      | cons p outer =>
        cases h
        exact .inr ⟨p, outer, rfl, rfl, rfl⟩
    | number | leftParen => cases above <;> cases h

/-- A stage that a run can reach: after a factor no sign is pending, and only the last sign or
parenthesis may exceed the limit. -/
def Stage.Reachable (limit : Nat) : Stage → Prop
  | .before above => above.length ≤ limit + 1
  | .after above => above.length ≤ limit ∧ settled above = above

theorem Stage.Reachable.next? (hs : s.Reachable limit) (h : s.next? limit t = some s') :
    s'.Reachable limit := by
  rcases next?_cases h with ⟨above, rfl, hle, ⟨-, rfl⟩ | ⟨-, rfl⟩⟩ | ⟨above, rfl, -, rfl⟩ |
    ⟨p, outer, rfl, -, rfl⟩
  · exact Nat.succ_le_succ hle
  · exact ⟨(length_settled_le above).trans hle, settled_settled⟩
  · exact hs.1.trans (Nat.le_succ limit)
  · have hle := hs.1
    rw [List.length_cons] at hle
    exact ⟨(length_settled_le outer).trans (by omega), settled_settled⟩

theorem Stage.Reachable.run? (hs : s.Reachable limit) (h : s.run? limit ts = some s') :
    s'.Reachable limit := by
  induction ts generalizing s with
  | nil =>
    cases h
    exact hs
  | cons t ts ih =>
    obtain ⟨r, hr, hmore⟩ := run?_cons_eq_some_iff.1 h
    exact ih (hs.next? hr) hmore

theorem reachable_of_run? (h : run? limit (.before []) ts = some s) : s.Reachable limit :=
  Stage.Reachable.run? (s := .before []) (Nat.zero_le _) h

/-- The limit is not exceeded where a step is possible. -/
theorem length_above_le (hs : s.Reachable limit) (h : next? limit s t = some s') :
    s.above.length ≤ limit := by
  rcases next?_cases h with ⟨above, rfl, hle, -⟩ | ⟨above, rfl, -⟩ | ⟨p, outer, rfl, -⟩
  · exact hle
  · exact hs.1
  · exact hs.1

/-- What is above the next factor is a part of the tokens, in their order. -/
theorem sublist_of_run? (h : run? limit s ts = some s') :
    s'.above.reverse.Sublist (s.above.reverse ++ ts) := by
  induction ts generalizing s with
  | nil =>
    cases h
    simp
  | cons t ts ih =>
    obtain ⟨r, hr, hmore⟩ := run?_cons_eq_some_iff.1 h
    have hsettled : ∀ above, (settled above).reverse.Sublist above.reverse := fun above =>
      (List.dropWhile_sublist _).reverse
    have hstep : r.above.reverse.Sublist (s.above.reverse ++ [t]) := by
      rcases next?_cases hr with ⟨above, rfl, -, ⟨-, rfl⟩ | ⟨-, rfl⟩⟩ | ⟨above, rfl, -, rfl⟩ |
        ⟨p, outer, rfl, -, rfl⟩
      · simp [Stage.above]
      · exact (hsettled above).trans (List.sublist_append_left ..)
      · exact List.sublist_append_left ..
      · refine ((hsettled outer).trans ?_).trans (List.sublist_append_left ..)
        exact (List.sublist_cons_self p outer).reverse
    have hwhole := (ih hmore).trans (hstep.append_right ts)
    simpa using hwhole

theorem next?_mono (hle : limit ≤ limit') (h : next? limit s t = some s') :
    next? limit' s t = some s' := by
  rcases next?_cases h with ⟨above, rfl, hlimit, ⟨ht, rfl⟩ | ⟨⟨v, rfl⟩, rfl⟩⟩ |
    ⟨above, rfl, ⟨op, hop | hop⟩, rfl⟩ | ⟨p, outer, rfl, rfl, rfl⟩
  · exact next?_opening ht (hlimit.trans hle)
  · exact next?_number (hlimit.trans hle)
  · exact next?_additive hop
  · exact next?_multiplicative hop
  · rfl

theorem run?_mono (hle : limit ≤ limit') (h : run? limit s ts = some s') :
    run? limit' s ts = some s' := by
  induction ts generalizing s with
  | nil => exact h
  | cons t ts ih =>
    obtain ⟨r, hr, hmore⟩ := run?_cons_eq_some_iff.1 h
    exact run?_cons_eq_some_iff.2 ⟨r, next?_mono hle hr, ih hmore⟩

/-! ### Expressions -/

theorem flaw?_surplus (hadd : t.additive? = none) (hmul : t.multiplicative? = none) :
    flaw? limit (.after []) (some t) = some (.surplus t) := by
  cases t <;> simp_all [flaw?, next?, Token.additive?, Token.multiplicative?]

theorem failsAt_ofLexemes (h : ofLexemes size ls = .error error) :
    FailsAt maxDepth size (.before []) ls error := by
  have hsum := keeps_sumOf (keeps_factor size maxDepth [] (Nat.zero_add _)) rfl
    (Nat.zero_add maxDepth).le
  rcases bind_eq_error.1 h with h | ⟨⟨⟨e, rest⟩, hlt⟩, he, h⟩
  · exact hsum.fails _ _ h
  · obtain ⟨used, rfl, hused⟩ := hsum.reads _ _ _ ⟨hlt, he⟩
    obtain ⟨hadd, hmul⟩ := stops_of_reads_sumOf ⟨hlt, he⟩
    cases rest with
    | nil => cases h
    | cons l rest =>
      cases h
      exact FailsAt.append hused (failsAt_self (flaw?_surplus (hadd l rfl) (hmul l rfl)) rfl)

theorem flaw?_of_run? (h : run? limit s (t :: ts) = some s') : flaw? limit s (some t) = none := by
  obtain ⟨r, hr, -⟩ := run?_cons_eq_some_iff.1 h
  exact flaw?_eq_none_iff.2 ⟨r, hr⟩

/-- Where a run comes to the end of a factor under nothing, there is no error. -/
theorem not_failsAt (h : run? limit s (ls.map Lexeme.token) = some (.after [])) :
    ¬FailsAt limit size s ls error := by
  rintro ⟨used, rest, r, rfl, hused, hflaw, -⟩
  rw [List.map_append] at h
  obtain ⟨r', hr', hrest⟩ := run?_append_eq_some_iff.1 h
  obtain rfl := Option.some.inj (hused.symm.trans hr')
  cases rest with
  | nil =>
    cases hrest
    cases hflaw
  | cons l rest =>
    rw [List.head?_cons, Option.map_some, flaw?_of_run? hrest] at hflaw
    cases hflaw

theorem FailsAt.unique {error' : SyntaxError} (h : FailsAt limit size s ls error)
    (h' : FailsAt limit size s ls error') : error = error' := by
  obtain ⟨used, rest, r, rfl, hused, hflaw, hposition⟩ := h
  obtain ⟨used', rest', r', heq, hused', hflaw', hposition'⟩ := h'
  -- where one of the two runs goes on, the other has no flaw
  have hsame : ∀ {used mid rest : List Lexeme} {r r' : Stage} {flaw : Flaw},
      run? limit s (used.map Lexeme.token) = some r →
      run? limit s ((used ++ mid).map Lexeme.token) = some r' →
      flaw? limit r ((mid ++ rest).head?.map Lexeme.token) = some flaw → mid = [] := by
    intro used mid rest r r' flaw hused hmore hflaw
    cases mid with
    | nil => rfl
    | cons l mid =>
      rw [List.map_append] at hmore
      obtain ⟨s', hs', hmore⟩ := run?_append_eq_some_iff.1 hmore
      obtain rfl := Option.some.inj (hused.symm.trans hs')
      rw [List.cons_append, List.head?_cons, Option.map_some, flaw?_of_run? hmore] at hflaw
      cases hflaw
  have hcut : used = used' ∧ rest = rest' := by
    rcases List.append_eq_append_iff.1 heq with ⟨mid, rfl, rfl⟩ | ⟨mid, rfl, rfl⟩
    · obtain rfl := hsame hused hused' hflaw
      simp
    · obtain rfl := hsame hused' hused hflaw'
      simp
  obtain ⟨rfl, rfl⟩ := hcut
  obtain rfl := Option.some.inj (hused.symm.trans hused')
  have hflaws := Option.some.inj (hflaw.symm.trans hflaw')
  have hpositions := hposition.trans hposition'.symm
  cases error
  cases error'
  exact congr (congrArg SyntaxError.mk hpositions) hflaws

/-- Tokens are derived exactly if they lead to the end of a factor under nothing. -/
theorem exists_derives_iff :
    (∃ e, Derives .sum limit ts e) ↔ run? limit (.before []) ts = some (.after []) := by
  constructor
  · rintro ⟨e, he⟩
    exact run?_of_derives he [] (Nat.zero_add limit).le
  · intro hrun
    have hsum := keeps_sumOf (keeps_factor 0 limit [] (Nat.zero_add _)) rfl (Nat.zero_add limit).le
    obtain ⟨ls, rfl⟩ : ∃ ls : List Lexeme, ls.map Lexeme.token = ts :=
      ⟨ts.map fun t => ⟨0, t⟩, by simp [Function.comp_def]⟩
    -- whichever lexemes are left, the reader does not stop before them
    cases hread : sumOf (factor 0 limit) ls with
    | error error => exact absurd (hsum.fails _ _ hread) (not_failsAt hrun)
    | ok result =>
      obtain ⟨⟨e, rest⟩, hlt⟩ := result
      obtain ⟨used, rfl, hused⟩ := sound_sumOf (sound_factor 0 limit) _ _ _ ⟨hlt, hread⟩
      obtain ⟨hadd, hmul⟩ := stops_of_reads_sumOf ⟨hlt, hread⟩
      cases rest with
      | nil => exact ⟨e, by simpa using hused⟩
      | cons l rest =>
        rw [List.map_append, run?_append, run?_of_derives hused [] (Nat.zero_add limit).le] at hrun
        have hnone := flaw?_of_run? hrun
        rw [settled_nil, flaw?_surplus (hadd l rfl) (hmul l rfl)] at hnone
        cases hnone

/-- A text is an expression. -/
def IsExpression (w : Text) : Prop := ∃ e, parse w = .ok e

theorem isExpression_iff :
    IsExpression w ↔ ∃ ts, HasTokens w ts ∧ run? maxDepth (.before []) ts = some (.after []) := by
  simp only [IsExpression, parse_eq_ok_iff, ← exists_derives_iff, HasTokens]
  constructor
  · rintro ⟨e, ls, hls, he⟩
    exact ⟨_, ⟨ls, hls, rfl⟩, e, he⟩
  · rintro ⟨_, ⟨ls, hls, rfl⟩, e, he⟩
    exact ⟨e, ls, hls, he⟩

/-- An error is found exactly where the lexemes fail to go on. -/
theorem parse_eq_error_iff (hls : Lexes 0 w ls) :
    parse w = .error error ↔ FailsAt maxDepth w.length (.before []) ls error := by
  constructor
  · intro h
    rw [parse, Lexeme.ofText_of_lexes hls] at h
    exact failsAt_ofLexemes h
  · intro h
    cases hparse : parse w with
    | error error' =>
      rw [parse, Lexeme.ofText_of_lexes hls] at hparse
      rw [(failsAt_ofLexemes hparse).unique h]
    | ok e =>
      obtain ⟨ts, ⟨ls', hls', rfl⟩, hrun⟩ := isExpression_iff.1 ⟨e, hparse⟩
      obtain rfl := hls.unique hls'
      exact absurd h (not_failsAt hrun)

/-! ### Continuations -/

theorem hasTokens_parens (n : Nat) :
    HasTokens (List.replicate n ')') (List.replicate n .rightParen) := by
  have hclose : Token.ofSymbol? ')' = some .rightParen := rfl
  induction n with
  | zero => exact hasTokens_nil
  | succ n ih =>
    exact (hasTokens_append_symbol (t := []) hclose).2 ⟨[], _, hasTokens_nil, ih, rfl⟩

theorem hasTokens_one_parens (n : Nat) :
    HasTokens ('1' :: List.replicate n ')') (.number 1.0 :: List.replicate n .rightParen) := by
  have hone : HasTokens ['1'] [.number 1.0] :=
    (hasTokens_numeral (.whole (by decide) (List.all_eq_true.1 rfl)) (by decide +kernel)).2 rfl
  have hclose : Token.ofSymbol? ')' = some .rightParen := rfl
  cases n with
  | zero => exact hone
  | succ n =>
    exact (hasTokens_append_symbol (t := ['1']) hclose).2 ⟨_, _, hone, hasTokens_parens n, rfl⟩

/-- After a factor it is enough to close the parentheses. -/
theorem exists_run?_parens (limit : Nat) (above : List Token) :
    ∃ n, run? limit (.after (settled above)) (List.replicate n .rightParen) = some (.after []) := by
  induction above with
  | nil => exact ⟨0, rfl⟩
  | cons t above ih =>
    cases ht : t.isSign with
    | true => rwa [settled_of_isSign ht]
    | false =>
      obtain ⟨n, hn⟩ := ih
      refine ⟨n + 1, ?_⟩
      rw [settled, List.dropWhile_cons_of_neg (by simp [ht]), List.replicate_succ]
      exact run?_cons_eq_some_iff.2 ⟨_, rfl, hn⟩

/-- From every stage within the limit some text leads to the end. -/
theorem exists_continuation (hs : s.Reachable limit) (hle : s.above.length ≤ limit) :
    ∃ more us, HasTokens more us ∧ run? limit s us = some (.after []) := by
  cases s with
  | before above =>
    obtain ⟨n, hn⟩ := exists_run?_parens limit above
    exact ⟨_, _, hasTokens_one_parens n, run?_cons_eq_some_iff.2 ⟨_, next?_number hle, hn⟩⟩
  | after above =>
    obtain ⟨n, hn⟩ := exists_run?_parens limit above
    rw [hs.2] at hn
    exact ⟨_, _, hasTokens_parens n, hn⟩

/-- A text goes on to an expression, the tokens of which begin with `ts`. -/
def Continues (w : Text) (ts : List Token) : Prop :=
  ∃ more us, HasTokens (w ++ more) (ts ++ us) ∧ IsExpression (w ++ more)

/-- The tokens of some expression begin with `ts`. -/
def Begins (ts : List Token) : Prop := ∃ w us, HasTokens w (ts ++ us) ∧ IsExpression w

theorem continues_of_run? (hw : HasTokens w ts) (h : run? maxDepth (.before []) ts = some s)
    (hle : s.above.length ≤ maxDepth) : Continues w ts := by
  obtain ⟨more, us, hmore, hus⟩ := exists_continuation (reachable_of_run? h) hle
  have hblank : Text.isBlank ' ' = true := rfl
  have htokens := (hasTokens_append_blank hblank).2 ⟨ts, us, hw, hmore, rfl⟩
  exact ⟨_, us, htokens,
    isExpression_iff.2 ⟨_, htokens, run?_append_eq_some_iff.2 ⟨s, h, hus⟩⟩⟩

theorem run?_of_begins (h : Begins ts) :
    ∃ s us, run? maxDepth (.before []) ts = some s ∧ run? maxDepth s us = some (.after []) := by
  obtain ⟨w, us, hw, hexpression⟩ := h
  obtain ⟨ts', hts', hrun⟩ := isExpression_iff.1 hexpression
  obtain rfl := hts'.unique hw
  obtain ⟨s, hs, hmore⟩ := run?_append_eq_some_iff.1 hrun
  exact ⟨s, us, hs, hmore⟩

/-- No expression goes on with a token that has a flaw. -/
theorem not_begins_of_flaw {flaw : Flaw} (h : run? maxDepth (.before []) ts = some s)
    (hflaw : flaw? maxDepth s (some t) = some flaw) : ¬Begins (ts ++ [t]) := by
  intro hbegins
  obtain ⟨s', -, hs', -⟩ := run?_of_begins hbegins
  obtain ⟨r, hr, hlast⟩ := run?_append_eq_some_iff.1 hs'
  obtain rfl := Option.some.inj (h.symm.trans hr)
  rw [flaw?_of_run? hlast] at hflaw
  cases hflaw

/-- Before each of the tokens of a run the text can be continued. -/
theorem continues_take {before back : List Lexeme}
    (hls : Lexes 0 w (before ++ l :: back))
    (h : run? maxDepth (.before []) ((before ++ [l]).map Lexeme.token) = some s) :
    Continues (w.take l.position) (before.map Lexeme.token) := by
  rw [List.map_append] at h
  obtain ⟨r, hr, hlast⟩ := run?_append_eq_some_iff.1 h
  obtain ⟨r', hr', -⟩ := run?_cons_eq_some_iff.1 hlast
  obtain ⟨a, b, rfl, ha, -, hstart⟩ := hls.split
  have hlength : l.position = a.length := hstart.trans (Nat.zero_add _)
  have htake : (a ++ b).take l.position = a := List.take_left' hlength.symm
  rw [htake]
  exact continues_of_run? ⟨before, ha, rfl⟩ hr (length_above_le (reachable_of_run? hr) hr')

/-! ### The place of an error -/

theorem flaw?_tooDeep_iff {next : Option Token} {flaw : Flaw} (hs : s.Reachable limit)
    (h : flaw? limit s next = some flaw) :
    flaw = .tooDeep ↔ ∃ above, s = .before above ∧ above.length = limit + 1 := by
  cases s with
  | before above =>
    have hle : above.length ≤ limit + 1 := hs
    have hiff : flaw = .tooDeep ↔ limit < above.length := by
      cases next with
      | none =>
        cases h
        split <;> simp_all
      | some t =>
        simp only [flaw?] at h
        split at h
        · cases h
        · cases h
          split <;> simp_all
    rw [hiff]
    constructor
    · exact fun hlt => ⟨above, rfl, by omega⟩
    · rintro ⟨_, heq, hlength⟩
      cases heq
      omega
  | after above =>
    have hne : flaw ≠ .tooDeep := by
      rintro rfl
      cases next with
      | none => cases above <;> cases h
      | some t =>
        simp only [flaw?] at h
        split at h
        · cases h
        · cases above <;> cases h
    simp [hne]

theorem length_above_le_of_shallow {next : Option Token} {flaw : Flaw} (hs : s.Reachable limit)
    (h : flaw? limit s next = some flaw) (hshallow : flaw ≠ .tooDeep) : s.above.length ≤ limit := by
  have hdeep := (flaw?_tooDeep_iff hs h).not.1 hshallow
  cases s with
  | before above =>
    have hle : above.length ≤ limit + 1 := hs
    have hne : above.length ≠ limit + 1 := fun heq => hdeep ⟨above, rfl, heq⟩
    exact Nat.le_of_lt_succ (Nat.lt_of_le_of_ne hle hne)
  | after above => exact hs.1

/-- No expression begins with tokens that exceed the limit of nesting. -/
theorem not_begins_of_deep {above : List Token}
    (h : run? maxDepth (.before []) ts = some (.before above))
    (hlength : above.length = maxDepth + 1) : ¬Begins ts := by
  intro hbegins
  obtain ⟨s', us, hs', hend⟩ := run?_of_begins hbegins
  obtain rfl := Option.some.inj (h.symm.trans hs')
  cases us with
  | nil => cases hend
  | cons t us =>
    obtain ⟨r, hr, -⟩ := run?_cons_eq_some_iff.1 hend
    have hle := length_above_le (reachable_of_run? h) hr
    rw [Stage.above, hlength] at hle
    exact absurd hle (Nat.not_succ_le_self _)

/-- Tokens that are one level too deep begin an expression of one more level. -/
theorem exists_derives_of_deep {above : List Token}
    (h : run? limit (.before []) ts = some (.before above)) (hlength : above.length = limit + 1) :
    ∃ us e, Derives .sum (limit + 1) (ts ++ us) e := by
  have hrun := run?_mono (Nat.le_succ limit) h
  obtain ⟨-, us, -, hus⟩ := exists_continuation (reachable_of_run? hrun) hlength.le
  exact ⟨us, exists_derives_iff.2 (run?_append_eq_some_iff.2 ⟨_, hrun, hus⟩)⟩

/-- A syntax error stands at a token or at the end of the text, and what comes before can be
continued to an expression, unless the limit of nesting is exceeded. If it stands at a token, the
tokens of no expression begin with those up to that token; if it stands at the end, the text is
incomplete. Where the limit is exceeded, the tokens before the error lead under a chain of exactly
257 pending signs and open parentheses; the last of them is the first that goes too far, and it is
admitted at one more level of nesting. -/
theorem parse_error_at_first_offender {w : Text} {ls : List Lexeme} {error : SyntaxError}
    (hls : Lexes 0 w ls) (h : parse w = .error error) :
    ∃ before after, ls = before ++ after ∧ (∀ l ∈ before, l.position < error.position) ∧
      error.position = start w.length after ∧
      (error.flaw ≠ .tooDeep →
        Continues (w.take error.position) (before.map Lexeme.token) ∧
        (∀ l ∈ after.head?, ¬Begins (before.map Lexeme.token ++ [l.token])) ∧
        (after = [] → ¬IsExpression w ∧ ∃ more, IsExpression (w ++ more))) ∧
      (error.flaw = .tooDeep →
        (∃ above, run? 256 (.before []) (before.map Lexeme.token) = some (.before above) ∧
          above.length = 257 ∧ above.reverse.Sublist (before.map Lexeme.token)) ∧
        ¬Begins (before.map Lexeme.token) ∧
        (∀ front l back, before = front ++ l :: back →
          Continues (w.take l.position) (front.map Lexeme.token)) ∧
        ∃ us e, Derives .sum 257 (before.map Lexeme.token ++ us) e) := by
  obtain ⟨before, after, s, rfl, hrun, hflaw, hposition⟩ := (parse_eq_error_iff hls).1 h
  obtain ⟨a, b, rfl, ha, hbefore, hstart⟩ := hls.split
  rw [Nat.zero_add, ← hposition] at hstart
  rw [Nat.zero_add] at hbefore hstart
  rw [← hstart] at hbefore
  have htake : (a ++ b).take error.position = a := List.take_left' hstart.symm
  have hreachable := reachable_of_run? hrun
  refine ⟨before, after, rfl, hbefore, hposition, fun hshallow => ?_, fun htooDeep => ?_⟩
  · have hle := length_above_le_of_shallow hreachable hflaw hshallow
    have hcontinues := continues_of_run? ⟨before, ha, rfl⟩ hrun hle
    rw [htake]
    refine ⟨hcontinues, fun l hl => ?_, fun hnil => ⟨?_, ?_⟩⟩
    · rw [Option.mem_def] at hl
      rw [hl, Option.map_some] at hflaw
      exact not_begins_of_flaw hrun hflaw
    · rintro ⟨e, he⟩
      rw [he] at h
      cases h
    · subst hnil
      have hlength : (a ++ b).length = a.length := hposition.symm.trans hstart
      obtain rfl : b = [] := List.eq_nil_of_length_eq_zero (by simpa using hlength)
      obtain ⟨more, -, -, hmore⟩ := hcontinues
      exact ⟨more, by simpa using hmore⟩
  · obtain ⟨above, rfl, hlength⟩ := (flaw?_tooDeep_iff hreachable hflaw).1 htooDeep
    refine ⟨⟨above, hrun, hlength, sublist_of_run? hrun⟩, not_begins_of_deep hrun hlength, ?_,
      exists_derives_of_deep hrun hlength⟩
    rintro front l back rfl
    rw [List.append_cons, List.map_append] at hrun
    obtain ⟨r, hr, -⟩ := run?_append_eq_some_iff.1 hrun
    rw [List.append_assoc, List.cons_append] at hls
    exact continues_take hls hr

example : parse (List.replicate 256 '(') = .error ⟨256, .unexpectedEnd⟩ ∧
    parse (List.replicate 257 '(') = .error ⟨257, .tooDeep⟩ := by
  decide +kernel

/-- The product has no first factor; the sum before it may still get its second summand. -/
theorem parse_error_at_first_offender_of_product :
    let w := ['(', '1', '+', '*', '2']
    let ls : List Lexeme := [⟨0, .leftParen⟩, ⟨1, .number 1.0⟩, ⟨2, .plus⟩, ⟨3, .times⟩,
      ⟨4, .number 2.0⟩]
    Lexes 0 w ls ∧ parse w = .error ⟨3, .missingNumber .times⟩ ∧
      Continues ['(', '1', '+'] [.leftParen, .number 1.0, .plus] ∧
      ¬Begins [.leftParen, .number 1.0, .plus, .times] := by
  intro w ls
  have hls : Lexes 0 w ls := Lexeme.lexes_of_ofText (by decide +kernel)
  have herror : parse w = .error ⟨3, .missingNumber .times⟩ := by decide +kernel
  obtain ⟨before, after, hcut, -, hposition, hfirst, -⟩ := parse_error_at_first_offender hls herror
  obtain ⟨n, rfl, rfl⟩ : ∃ n, before = ls.take n ∧ after = ls.drop n :=
    ⟨before.length, by simp [hcut], by simp [hcut]⟩
  obtain rfl : n = 3 := by
    match n with
    | 0 | 1 | 2 | 4 => exact absurd hposition (by decide)
    | 3 => rfl
    | n + 5 => exact absurd hposition (by simp [ls, w, start])
  obtain ⟨hcontinues, hoffends, -⟩ := hfirst (by simp)
  exact ⟨hls, herror, hcontinues, hoffends ⟨3, .times⟩ rfl⟩

end KeypadCalc.Expr
