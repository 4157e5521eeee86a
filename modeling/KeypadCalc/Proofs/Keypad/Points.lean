import KeypadCalc.Proofs.Keypad.Operators

/-! The points of numbers. A number as it is written has one point at most, and the point key looks
for one after the last operator. So every key leaves one point to a number, except that the percent
key does not see a point that a number begins with, and may put a number that has one after it. -/

namespace KeypadCalc.Keypad

open Binary64
open Decimal.Numeral (value?)
open NumberText
open Sanitizer
open Text (isDecimalDigit)

/-- The characters of numbers. -/
def isNumeric (c : Char) : Bool := c.isDigit || c == '.'

/-- No characters of a number that follow each other include two points. -/
def OnePoint (t : Text) : Prop :=
  ∀ front run rest, t = front ++ (run ++ rest) → (∀ c ∈ run, isNumeric c = true) →
    run.count '.' ≤ 1

variable {t t' a b u m ds front numeral run : Text} {c : Char} {v : Float} {k : Keypad}

theorem isOperator_of_isNumeric (h : isNumeric c = true) : isOperator c = false := by
  rw [isNumeric, Bool.or_eq_true, beq_iff_eq] at h
  rcases h with h | rfl
  · exact isOperator_of_isDigit h
  · rfl

/-! ### Fronts and ends -/

theorem onePoint_of_count_le (h : t.count '.' ≤ 1) : OnePoint t := by
  rintro front run rest rfl -
  rw [List.count_append, List.count_append] at h
  omega

theorem OnePoint.of_append (h : OnePoint (a ++ b)) : OnePoint a := by
  rintro front run rest rfl
  exact h front run (rest ++ b) (by simp)

theorem OnePoint.dropLast (h : OnePoint t) : OnePoint t.dropLast := by
  obtain ⟨last, heq⟩ := t.dropLast_prefix
  rw [← heq] at h
  exact h.of_append

theorem rtakeWhile_append (h : ∀ c ∈ run, isNumeric c = true) :
    (front ++ run).rtakeWhile isNumeric = front.rtakeWhile isNumeric ++ run := by
  have hrun : ∀ c ∈ run.reverse, isNumeric c = true := fun c hc => h c (List.mem_reverse.1 hc)
  rw [List.rtakeWhile, List.reverse_append, List.takeWhile_append_of_pos hrun, List.reverse_append,
    List.reverse_reverse]
  rfl

/-- Two points come together at a seam exactly if there is one in the characters of a number on
either side. -/
theorem onePoint_append_iff :
    OnePoint (a ++ b) ↔ OnePoint a ∧ OnePoint b ∧
      ('.' ∈ a.rtakeWhile isNumeric → '.' ∉ b.takeWhile isNumeric) := by
  constructor
  · intro h
    refine ⟨h.of_append, fun front run rest heq => h (a ++ front) run rest (by simp [heq]), ?_⟩
    intro ha hb
    have hcount : (a.rtakeWhile isNumeric ++ b.takeWhile isNumeric).count '.' ≤ 1 := by
      refine h (a.rdropWhile isNumeric) _ (b.dropWhile isNumeric) ?_ (List.forall_mem_append.2
        ⟨fun c => List.mem_rtakeWhile_imp, fun c => List.mem_takeWhile_imp⟩)
      rw [List.append_assoc, List.takeWhile_append_dropWhile, ← List.append_assoc,
        List.rdropWhile_append_rtakeWhile]
    rw [List.count_append] at hcount
    have ha' := List.count_pos_iff.2 ha
    have hb' := List.count_pos_iff.2 hb
    omega
  · rintro ⟨ha, hb, hseam⟩ front run rest heq hrun
    rcases List.append_eq_append_iff.1 heq with ⟨mid, -, hb'⟩ | ⟨left, rfl, hleft⟩
    · exact hb mid run rest hb' hrun
    · rcases List.append_eq_append_iff.1 hleft with ⟨rest', rfl, -⟩ | ⟨right, rfl, rfl⟩
      · exact ha front run rest' rfl hrun
      · -- the characters lie across the seam
        obtain ⟨hleft, hright⟩ := List.forall_mem_append.1 hrun
        rw [rtakeWhile_append hleft, List.takeWhile_append_of_pos hright] at hseam
        rw [List.count_append]
        by_cases hmem : '.' ∈ left
        · have hnone : '.' ∉ right := fun hmem' =>
            hseam (List.mem_append_right _ hmem) (List.mem_append_left _ hmem')
          rw [List.count_eq_zero.2 hnone]
          exact ha front left [] (by simp) hleft
        · rw [List.count_eq_zero.2 hmem, Nat.zero_add]
          exact hb [] right rest rfl hright

/-! ### Numbers -/

theorem count_point_of_digits (h : ∀ c ∈ ds, c.isDigit) : ds.count '.' = 0 :=
  List.count_eq_zero.2 fun hmem => absurd (h '.' hmem) (by decide)

theorem count_point_of_isLiteral (h : IsLiteral u) : u.count '.' ≤ 1 := by
  cases h with
  | whole _ hd =>
    rw [count_point_of_digits hd]
    exact Nat.zero_le 1
  | point _ _ hd hf =>
    rw [List.count_append, List.count_cons_self, count_point_of_digits hd, count_point_of_digits hf]

theorem count_point_of_isMagnitude (h : IsMagnitude m) : m.count '.' ≤ 1 := by
  cases h with
  | literal hu => exact count_point_of_isLiteral hu
  | power hu hsign hds =>
    rw [List.count_append, List.count_cons_of_ne (by decide),
      List.count_cons_of_ne (by rcases hsign with rfl | rfl <;> decide), count_point_of_digits hds]
    exact count_point_of_isLiteral hu
  | infinity | nan => decide

theorem onePoint_plain (v : Float) : OnePoint (plain v) := by
  refine onePoint_of_count_le ?_
  rcases plain_cases v with ⟨-, hm⟩ | ⟨-, hzero | ⟨m, heq, hm⟩⟩
  · exact count_point_of_isMagnitude hm
  · rw [hzero]
    decide
  · rw [heq, List.count_cons_of_ne (by decide)]
    exact count_point_of_isMagnitude hm

/-! ### Keys -/

theorem onePoint_singleton (c : Char) : OnePoint [c] := onePoint_of_count_le List.count_le_length

theorem OnePoint.concat (h : OnePoint t) (hpoint : c = '.' → '.' ∉ lastOperand t) :
    OnePoint (t ++ [c]) := by
  refine onePoint_append_iff.2 ⟨h, onePoint_singleton c, fun hmem hmem' => ?_⟩
  have hc : '.' = c := List.mem_singleton.1 ((List.takeWhile_sublist _).subset hmem')
  refine hpoint hc.symm ?_
  have heq : t.rdropWhile isNumeric ++ t.rtakeWhile isNumeric = t :=
    List.rdropWhile_append_rtakeWhile
  rw [← heq]
  exact mem_lastOperand (fun d hd => isOperator_of_isNumeric (List.mem_rtakeWhile_imp hd)) hmem

theorem OnePoint.typedText? (h : OnePoint t) (ht : typedText? t c = some t') : OnePoint t' := by
  rcases typedText?_cases ht with ⟨d, hd, rfl⟩ | rfl | ⟨d, hd, rfl⟩ | ⟨d, hd, rfl⟩
  · have hne : d ≠ '.' := by
      rintro rfl
      cases hd
    unfold withDigit
    split
    · exact onePoint_singleton d
    · exact h.concat fun heq => absurd heq hne
  · unfold withPoint
    split
    · exact h
    · rename_i hnone
      exact h.concat fun _ hmem => hnone (List.contains_iff_mem.2 hmem)
  · have hne : d ≠ '.' := by
      rintro rfl
      cases hd
    unfold withOperator
    split
    · split
      · exact onePoint_singleton '-'
      · exact h
    · split
      · exact h.dropLast.concat fun heq => absurd heq hne
      · exact h.concat fun heq => absurd heq hne
  · exact h.concat fun heq => by rcases hd with rfl | rfl <;> cases heq

/-! ### The percent key -/

/-- The percent key would write a number with a point right after a point. -/
def doublesPoint (t : Text) : Bool :=
  (dividend? t).any fun d =>
    d.1.getLast? == some '.' && ((plain (d.2 / 100.0)).takeWhile isNumeric).contains '.'

theorem isUnsigned_cons (hc : isDecimalDigit c = true) (h : isUnsigned t = true) :
    isUnsigned (c :: t) = true := by
  rw [isUnsigned, Bool.and_eq_true] at h ⊢
  rw [List.dropWhile_cons_of_pos hc]
  exact ⟨hc, h.2⟩

/-- A number that is found without a sign has no digit before it, so a point of the same number
stands right before it. -/
theorem getLast?_of_splitNumeral? (hsplit : splitNumeral? t = some (front, numeral))
    (hsign : numeral.head? ≠ some '-') (hmem : '.' ∈ front.rtakeWhile isNumeric) :
    front.getLast? = some '.' := by
  rcases List.eq_nil_or_concat front with rfl | ⟨front, c, rfl⟩
  · cases hmem
  · rw [List.concat_eq_append] at hsplit hmem ⊢
    rw [List.rtakeWhile_concat] at hmem
    split at hmem
    · rename_i hc
      rw [isNumeric, Bool.or_eq_true, beq_iff_eq] at hc
      rcases hc with hdigit | rfl
      · have hnumeral : isNumeral numeral = true := by
          rw [← List.append_nil (front ++ [c])] at hsplit
          exact (isNumeral_of_splitNumeral? hsplit).2 rfl
        rw [isNumeral_of_head?_ne hsign] at hnumeral
        have hlonger : isNumeral ([c] ++ numeral) = true := by
          rw [List.singleton_append, isNumeral_of_head?_ne]
          · exact isUnsigned_cons (isDecimalDigit_of_isDigit hdigit) hnumeral
          · rintro ⟨⟩
            cases hdigit
        cases (isNumeral_of_splitNumeral? hsplit).1 hlonger
      · exact List.getLast?_concat
    · cases hmem

theorem onePoint_hundredth_iff (h : OnePoint t) (hd : dividend? t = some (front, v)) :
    OnePoint (front ++ plain (v / 100.0)) ↔ doublesPoint t = false := by
  obtain ⟨numeral, hsplit, hvalue⟩ := exists_of_dividend? hd
  have hfront : OnePoint front := by
    rw [← splitNumeral?_append hsplit] at h
    exact h.of_append
  have hdoubles : doublesPoint t = true ↔
      front.getLast? = some '.' ∧ '.' ∈ (plain (v / 100.0)).takeWhile isNumeric := by
    simp [doublesPoint, hd]
  rw [onePoint_append_iff, and_iff_right hfront, and_iff_right (onePoint_plain _),
    ← Bool.not_eq_true, hdoubles, not_and]
  constructor
  · intro hseam hlast
    obtain ⟨front, rfl⟩ := List.getLast?_eq_some_iff.1 hlast
    refine hseam ?_
    rw [List.rtakeWhile_concat_pos _ _ _ rfl]
    simp
  · intro hlast hmem hmem'
    refine hlast (getLast?_of_splitNumeral? hsplit (fun hminus => ?_) hmem) hmem'
    -- a number with a sign is written with it, or as zero
    have hnegative : isNegative (v / 100.0) = true :=
      (div_hundred_spec (Decimal.Numeral.isNaN_of_value? hvalue)).2.1.trans
        ((isNegative_of_value? hvalue).2 hminus)
    rcases plain_cases (v / 100.0) with ⟨hpositive, -⟩ | ⟨-, hzero | ⟨m, heq, -⟩⟩
    · rw [hnegative] at hpositive
      cases hpositive
    · rw [hzero] at hmem'
      exact absurd hmem' (by decide)
    · rw [heq] at hmem'
      cases hmem'

/-- The percent key leaves one point to a number exactly if it puts none after a point. -/
theorem onePoint_percent_iff (h : OnePoint k.expression) :
    OnePoint k.percent.expression ↔ doublesPoint k.expression = false := by
  rcases percent_cases k with ⟨hnil, hpercent⟩ | ⟨hnone, hpercent⟩ | ⟨front, v, hsome, hpercent⟩
  · rw [hpercent, hnil]
    exact iff_of_true (onePoint_singleton '0') rfl
  · rw [hpercent, doublesPoint, hnone]
    exact iff_of_true h rfl
  · rw [hpercent]
    exact onePoint_hundredth_iff h hsome

end KeypadCalc.Keypad
