import KeypadCalc.Proofs.Percent.Grammar

/-! A percent literal at the end. It may give way to the number that it is worth, and the other way
round if the signs before it leave a level of nesting for it: nothing else can stand around the last
number of an expression. -/

namespace KeypadCalc.Percent

/-- A plus or minus sign, as it may stand before a factor. -/
def Symbol.IsSign (s : Symbol) : Prop := s = .token .plus ∨ s = .token .minus

variable {level : Level} {budget : ℕ} {ss ss₁ us : List Symbol} {s x : Symbol} {e : Expr}
  {v : Float}

theorem Derives.ne_nil (h : Derives level budget ss e) : ss ≠ [] := by
  induction h with
  | ofFactor _ ih | ofProduct _ ih => exact ih
  | _ => simp

/-- The end of an operation is the end of its right operand. -/
theorem exists_concat_of_operation (hne : us ≠ []) (h : ss₁ ++ s :: us = ss ++ [x]) :
    ∃ us', us = us' ++ [x] ∧ ss = ss₁ ++ s :: us' := by
  obtain ⟨us', y, rfl⟩ := (List.eq_nil_or_concat us).resolve_left hne
  rw [List.concat_eq_append, ← List.cons_append, ← List.append_assoc] at h
  obtain ⟨rfl, hy⟩ := List.append_inj' h rfl
  obtain rfl := List.singleton_inj.1 hy
  exact ⟨us', List.concat_eq_append, rfl⟩

theorem exists_cons_of_concat (hne : s ≠ x) (h : s :: us = ss ++ [x]) :
    ∃ ss', ss = s :: ss' ∧ us = ss' ++ [x] := by
  cases ss with
  | nil =>
    obtain ⟨rfl, -⟩ := List.cons_eq_cons.1 h
    exact absurd rfl hne
  | cons y ss' =>
    obtain ⟨rfl, hus⟩ := List.cons_eq_cons.1 h
    exact ⟨ss', rfl, hus⟩

theorem eq_of_concat {y : Symbol} (h : us ++ [y] = ss ++ [x]) : us = ss ∧ y = x :=
  (List.append_inj' h rfl).imp_right List.singleton_inj.1

theorem eq_of_singleton {y : Symbol} (h : [y] = ss ++ [x]) : ss = [] ∧ y = x := by
  have h' : [] ++ [y] = ss ++ [x] := h
  exact (eq_of_concat h').imp_left Eq.symm

/-- A percent literal at the end is worth the number in its place. -/
theorem Derives.number_of_literal (h : Derives level budget us e) :
    ∀ ss, us = ss ++ [.literal v] →
      Derives level budget (ss ++ [.token (.number (v / 100.0))]) e := by
  induction h with
  | number =>
    intro ss hus
    cases (eq_of_singleton hus).2
  | literal =>
    intro ss hus
    obtain ⟨rfl, hv⟩ := eq_of_singleton hus
    cases hv
    exact .number
  | positive _ ih =>
    intro ss hus
    obtain ⟨ss', rfl, rfl⟩ := exists_cons_of_concat (by simp) hus
    exact (ih ss' rfl).positive
  | negative _ ih =>
    intro ss hus
    obtain ⟨ss', rfl, rfl⟩ := exists_cons_of_concat (by simp) hus
    exact (ih ss' rfl).negative
  | paren =>
    intro ss hus
    cases (eq_of_concat hus).2
  | ofFactor _ ih => exact fun ss hus => .ofFactor (ih ss hus)
  | product h hop hf _ ih =>
    intro ss hus
    obtain ⟨us', rfl, rfl⟩ := exists_concat_of_operation hf.ne_nil hus
    rw [List.append_assoc]
    exact h.product hop (ih us' rfl)
  | ofProduct _ ih => exact fun ss hus => .ofProduct (ih ss hus)
  | sum h hop hf _ ih =>
    intro ss hus
    obtain ⟨us', rfl, rfl⟩ := exists_concat_of_operation hf.ne_nil hus
    rw [List.append_assoc]
    exact h.sum hop (ih us' rfl)

/-- Only signs stand before the number of a factor that ends in one. -/
theorem Derives.factor_of_number (h : Derives level budget us e) :
    level = .factor → ∀ ss, us = ss ++ [.token (.number (v / 100.0))] →
      (∀ s ∈ ss, s.IsSign) ∧
        (ss.length < budget → Derives .factor budget (ss ++ [.literal v]) e) := by
  induction h with
  | number =>
    intro _ ss hus
    obtain ⟨rfl, hv⟩ := eq_of_singleton hus
    cases hv
    refine ⟨by simp, fun hlt => ?_⟩
    obtain ⟨b, rfl⟩ := Nat.exists_eq_add_of_lt hlt
    exact .literal
  | literal =>
    intro _ ss hus
    cases (eq_of_singleton hus).2
  | positive _ ih =>
    intro _ ss hus
    obtain ⟨ss', rfl, rfl⟩ := exists_cons_of_concat (by simp) hus
    obtain ⟨hsigns, hliteral⟩ := ih rfl ss' rfl
    exact ⟨List.forall_mem_cons.2 ⟨.inl rfl, hsigns⟩, fun hlt =>
      (hliteral (Nat.lt_of_succ_lt_succ hlt)).positive⟩
  | negative _ ih =>
    intro _ ss hus
    obtain ⟨ss', rfl, rfl⟩ := exists_cons_of_concat (by simp) hus
    obtain ⟨hsigns, hliteral⟩ := ih rfl ss' rfl
    exact ⟨List.forall_mem_cons.2 ⟨.inr rfl, hsigns⟩, fun hlt =>
      (hliteral (Nat.lt_of_succ_lt_succ hlt)).negative⟩
  | paren =>
    intro _ ss hus
    cases (eq_of_concat hus).2
  | ofFactor | product | ofProduct | sum =>
    intro hlevel
    cases hlevel

/-- The signs at the end of some symbols are fewer than the levels of nesting that are left. -/
def FewSigns (budget : ℕ) (ss : List Symbol) : Prop :=
  ∀ front signs, ss = front ++ signs → (∀ s ∈ signs, s.IsSign) → signs.length < budget

theorem FewSigns.of_append (h : FewSigns budget (ss₁ ++ s :: us)) : FewSigns budget us := by
  intro front signs hus
  exact h (ss₁ ++ s :: front) signs (by rw [hus]; simp)

theorem FewSigns.mono {budget' : ℕ} (h : FewSigns budget ss) (hle : budget ≤ budget') :
    FewSigns budget' ss :=
  fun front signs hss hsigns => (h front signs hss hsigns).trans_le hle

theorem fewSigns_nil (h : 0 < budget) : FewSigns budget [] := by
  intro front signs hss _
  rw [(List.append_eq_nil_iff.1 hss.symm).2]
  exact h

theorem fewSigns_concat (h : 0 < budget) (hs : ¬s.IsSign) : FewSigns budget (ss ++ [s]) := by
  intro front signs hss hsigns
  rcases List.eq_nil_or_concat signs with rfl | ⟨signs, y, rfl⟩
  · exact h
  · rw [List.concat_eq_append, ← List.append_assoc] at hss
    obtain ⟨-, rfl⟩ := eq_of_concat hss
    exact absurd (hsigns s (by simp)) hs

theorem FewSigns.concat (h : FewSigns budget ss) : FewSigns (budget + 1) (ss ++ [s]) := by
  intro front signs hss hsigns
  rcases List.eq_nil_or_concat signs with rfl | ⟨signs, y, rfl⟩
  · exact Nat.succ_pos _
  · rw [List.concat_eq_append, ← List.append_assoc] at hss
    obtain ⟨hss, -⟩ := eq_of_concat hss
    have hlt := h front signs hss fun x hx => hsigns x (by simp [hx])
    simpa using hlt

/-- A number at the end may be written as the percent literal that is worth it. -/
theorem Derives.literal_of_number (h : Derives level budget us e) :
    ∀ ss, us = ss ++ [.token (.number (v / 100.0))] → FewSigns budget ss →
      Derives level budget (ss ++ [.literal v]) e := by
  have hfactor : ∀ {budget us e}, Derives .factor budget us e →
      ∀ ss, us = ss ++ [.token (.number (v / 100.0))] → FewSigns budget ss →
        Derives .factor budget (ss ++ [.literal v]) e := by
    intro budget us e h ss hus hfew
    obtain ⟨hsigns, hliteral⟩ := h.factor_of_number rfl ss hus
    exact hliteral (hfew [] ss rfl hsigns)
  induction h with
  | number => exact hfactor .number
  | literal => exact hfactor .literal
  | positive h => exact hfactor h.positive
  | negative h => exact hfactor h.negative
  | paren h => exact hfactor h.paren
  | ofFactor h => exact fun ss hus hfew => .ofFactor (hfactor h ss hus hfew)
  | product h hop hf _ ih =>
    intro ss hus hfew
    obtain ⟨us', rfl, rfl⟩ := exists_concat_of_operation hf.ne_nil hus
    rw [List.append_assoc]
    exact h.product hop (ih us' rfl hfew.of_append)
  | ofProduct _ ih => exact fun ss hus hfew => .ofProduct (ih ss hus hfew)
  | sum h hop hf _ ih =>
    intro ss hus hfew
    obtain ⟨us', rfl, rfl⟩ := exists_concat_of_operation hf.ne_nil hus
    rw [List.append_assoc]
    exact h.sum hop (ih us' rfl hfew.of_append)

theorem derives_literal_concat_iff (h : FewSigns budget ss) :
    Derives level budget (ss ++ [.literal v]) e ↔
      Derives level budget (ss ++ [.token (.number (v / 100.0))]) e :=
  ⟨fun hd => hd.number_of_literal ss rfl, fun hd => hd.literal_of_number ss rfl h⟩

/-- Tokens with the division that a percent literal at the end is written as have the values of the
same tokens with the number it is worth. -/
theorem exists_derives_quotient_iff {ts : List Token} {w : Float}
    (h : FewSigns budget (ts.map .token)) :
    (∃ e, KeypadCalc.Derives level budget (ts ++ (Symbol.literal v).tokens) e ∧ e.value = w) ↔
      ∃ e, KeypadCalc.Derives level budget (ts ++ [.number (v / 100.0)]) e ∧ e.value = w := by
  have hliteral : ts ++ (Symbol.literal v).tokens = expand (ts.map .token ++ [.literal v]) := by
    simp [Symbol.tokens]
  have hnumber : ts ++ [.number (v / 100.0)] =
      expand (ts.map .token ++ [.token (.number (v / 100.0))]) := by simp
  rw [hliteral, hnumber, exists_derives_expand_iff, exists_derives_expand_iff]
  simp only [derives_literal_concat_iff h]

end KeypadCalc.Percent
