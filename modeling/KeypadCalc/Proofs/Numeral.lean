import KeypadCalc.Decimal.Numeral
import Mathlib.Data.List.TakeWhile
import Mathlib.Tactic.ByContra

/-! The numerals as a set of texts. `split` takes the longest numeral off the front of a text, and
every numeral has a value. -/

namespace KeypadCalc.Decimal.Numeral

/-- A text is a numeral if it is digits, or digits with a point among them, before or after which
the digits may be missing. -/
inductive IsNumeral : Text → Prop
  | whole {ds : Text} : ds ≠ [] → (∀ c ∈ ds, c.isDigit) → IsNumeral ds
  | point {ds fs : Text} : (∀ c ∈ ds, c.isDigit) → (∀ c ∈ fs, c.isDigit) → ds ≠ [] ∨ fs ≠ [] →
      IsNumeral (ds ++ '.' :: fs)

/-- The numeral `u` at the front of the text `u ++ rest` is not the front of a longer one. -/
def IsLongest (u rest : Text) : Prop :=
  ∀ more after, rest = more ++ after → IsNumeral (u ++ more) → more = []

theorem not_isDigit_point : ¬Char.isDigit '.' := by decide

/-- Taking digits off a text that begins with digits takes these first. -/
theorem takeWhile_digits {ds : Text} (h : ∀ c ∈ ds, c.isDigit) (t : Text) :
    (ds ++ t).takeWhile Char.isDigit = ds ++ t.takeWhile Char.isDigit :=
  List.takeWhile_append_of_pos h

theorem dropWhile_digits {ds : Text} (h : ∀ c ∈ ds, c.isDigit) (t : Text) :
    (ds ++ t).dropWhile Char.isDigit = t.dropWhile Char.isDigit :=
  List.dropWhile_append_of_pos h

/-- Splitting digits, a point and more digits off the front of a text. -/
theorem split_point {ds fs : Text} (hd : ∀ c ∈ ds, c.isDigit) (hf : ∀ c ∈ fs, c.isDigit)
    (t : Text) :
    split (ds ++ '.' :: (fs ++ t)) =
      (ds ++ '.' :: (fs ++ t.takeWhile Char.isDigit), t.dropWhile Char.isDigit) := by
  simp only [split, takeWhile_digits hd, dropWhile_digits hd,
    List.takeWhile_cons_of_neg not_isDigit_point, List.dropWhile_cons_of_neg not_isDigit_point,
    List.append_nil, takeWhile_digits hf, dropWhile_digits hf]

theorem split_append (t : Text) : (split t).1 ++ (split t).2 = t := by
  have h := List.takeWhile_append_dropWhile (p := Char.isDigit) (l := t)
  unfold split
  split
  · rename_i rest heq
    rw [heq] at h
    simp only [List.append_assoc, List.cons_append, List.takeWhile_append_dropWhile]
    exact h
  · exact h

theorem mem_takeWhile_isDigit {t : Text} {c : Char} (h : c ∈ t.takeWhile Char.isDigit) :
    c.isDigit :=
  List.mem_takeWhile_imp h

/-- What is split off the front of a text is a numeral unless it is empty or a lone point. -/
theorem isNumeral_split {t : Text} (hne : (split t).1 ≠ []) (hpoint : (split t).1 ≠ ['.']) :
    IsNumeral (split t).1 := by
  unfold split at *
  split at hne
  · rename_i rest heq
    simp only [heq] at hpoint ⊢
    refine .point (fun c => mem_takeWhile_isDigit) (fun c => mem_takeWhile_isDigit) ?_
    by_contra hnone
    simp only [not_or, not_not] at hnone
    simp [hnone.1, hnone.2] at hpoint
  · exact .whole hne fun c => mem_takeWhile_isDigit

/-- Each numeral at the front of a text is part of what is split off. -/
theorem prefix_split {u : Text} (h : IsNumeral u) (rest : Text) :
    u <+: (split (u ++ rest)).1 := by
  cases h with
  | whole hne hd =>
    unfold split
    rw [takeWhile_digits hd]
    split
    · exact ⟨_, (List.append_assoc ..).symm⟩
    · exact ⟨_, rfl⟩
  | @point ds fs hd hf hne =>
    rw [List.append_assoc, List.cons_append, split_point hd hf]
    exact ⟨rest.takeWhile Char.isDigit, by simp⟩

/-- The longest numeral at the front of a text is what is split off. -/
theorem split_of_isLongest {u rest : Text} (h : IsNumeral u) (hmax : IsLongest u rest) :
    split (u ++ rest) = (u, rest) := by
  obtain ⟨more, hmore⟩ := prefix_split h rest
  have happ := split_append (u ++ rest)
  rw [← hmore, List.append_assoc, List.append_cancel_left_eq] at happ
  have hnum : IsNumeral (u ++ more) := by
    rw [hmore]
    apply isNumeral_split
    · rw [← hmore]
      cases h with
      | whole hne => simp [hne]
      | point => simp
    · intro hp
      rw [hp] at hmore
      cases h with
      | @whole _ hne hd =>
        cases u with
        | nil => exact hne rfl
        | cons c cs =>
          obtain ⟨rfl, -⟩ := List.cons_eq_cons.1 (hmore.trans rfl)
          exact not_isDigit_point (hd '.' (by simp))
      | @point ds fs _ _ hne =>
        have := congrArg List.length hmore
        simp only [List.length_append, List.length_cons, List.length_nil] at this
        rcases hne with hne | hne <;>
          exact hne (List.eq_nil_of_length_eq_zero (by omega))
  obtain rfl := hmax more _ happ.symm hnum
  rw [List.append_nil] at hmore
  exact Prod.ext hmore.symm (by simpa using happ)

/-- What is split off the front of a text is not the front of a longer numeral. -/
theorem isLongest_split {t : Text} : IsLongest (split t).1 (split t).2 := by
  intro more after hrest hnum
  obtain ⟨extra, hextra⟩ := prefix_split hnum after
  have ht : (split t).1 ++ more ++ after = t := by
    rw [List.append_assoc, ← hrest, split_append]
  rw [ht] at hextra
  have := congrArg List.length hextra
  simp only [List.length_append] at this
  exact List.eq_nil_of_length_eq_zero (by omega)

theorem decimal?_whole {ds : Text} (hne : ds ≠ []) (hd : ∀ c ∈ ds, c.isDigit) :
    decimal? ds = some (ofDigits ds []) := by
  have htake := takeWhile_digits hd []
  have hdrop := dropWhile_digits hd []
  simp only [List.append_nil, List.takeWhile_nil, List.dropWhile_nil] at htake hdrop
  simp [decimal?, htake, hdrop, hne]

theorem decimal?_point {ds fs : Text} (hd : ∀ c ∈ ds, c.isDigit) (hf : ∀ c ∈ fs, c.isDigit)
    (hne : ds ≠ [] ∨ fs ≠ []) : decimal? (ds ++ '.' :: fs) = some (ofDigits ds fs) := by
  have htake := takeWhile_digits hd ('.' :: fs)
  have hdrop := dropWhile_digits hd ('.' :: fs)
  rw [List.takeWhile_cons_of_neg not_isDigit_point, List.append_nil] at htake
  rw [List.dropWhile_cons_of_neg not_isDigit_point] at hdrop
  simpa [decimal?, htake, hdrop, List.all_eq_true.2 hf] using not_and_or.2 hne

/-- A numeral has no minus sign. -/
theorem IsNumeral.value?_eq {u : Text} (h : IsNumeral u) :
    value? u = (decimal? u).map toFloat := by
  have hhead : ∀ t, u ≠ '-' :: t := by
    rintro t rfl
    generalize hw : '-' :: t = w at h
    cases h with
    | whole _ hd => exact absurd (hd '-' (by simp [← hw])) (by decide)
    | @point ds fs hd =>
      cases ds with
      | nil => simp at hw
      | cons c cs =>
        obtain ⟨rfl, -⟩ := List.cons_eq_cons.1 hw
        exact absurd (hd '-' (by simp)) (by decide)
  unfold value?
  split
  · exact absurd rfl (hhead _)
  · rfl

/-- A minus sign before a numeral changes the sign of its value. -/
theorem IsNumeral.value?_minus {u : Text} (h : IsNumeral u) :
    value? ('-' :: u) = (value? u).map fun v => -v := by
  rw [h.value?_eq, Option.map_map]
  rfl

/-- Every numeral has a value. -/
theorem IsNumeral.value {u : Text} (h : IsNumeral u) : ∃ v, value? u = some v := by
  suffices hdec : ∃ d, decimal? u = some d by
    obtain ⟨d, hd⟩ := hdec
    exact ⟨_, by rw [h.value?_eq, hd]; rfl⟩
  cases h with
  | whole hne hd => exact ⟨_, decimal?_whole hne hd⟩
  | point hd hf hne => exact ⟨_, decimal?_point hd hf hne⟩

end KeypadCalc.Decimal.Numeral
