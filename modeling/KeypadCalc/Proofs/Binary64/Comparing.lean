import KeypadCalc.Proofs.Binary64.Operations

/-! Comparing floats. Those without a minus sign are in the order of their units, since a mantissa
one place higher is at least as great as any mantissa below it. -/

namespace KeypadCalc.Binary64

open Float.Model (Format UnpackedFloat)
open Float.Model.UnpackedFloat

variable {x y : Float} {m m' n k k' : ℕ}

theorem IsCanonical.mul_two_pow_lt (h : IsCanonical m k) (h' : IsCanonical m' k') (hlt : k < k') :
    m * 2 ^ k < m' * 2 ^ k' := by
  have hfull := h'.normal.resolve_left (by omega)
  calc
    m * 2 ^ k < 2 ^ 53 * 2 ^ k := Nat.mul_lt_mul_of_pos_right h.lt (by positivity)
    _ = 2 ^ 52 * 2 ^ (k + 1) := by ring
    _ ≤ m' * 2 ^ k' := Nat.mul_le_mul hfull (Nat.pow_le_pow_right (by decide) hlt)

theorem compare_mul_two_pow (h : IsCanonical m k) (h' : IsCanonical m' k') :
    compare (m * 2 ^ k) (m' * 2 ^ k') = (compare k k').then (compare m m') := by
  rcases Nat.lt_trichotomy k k' with hlt | rfl | hgt
  · rw [Nat.compare_eq_lt.2 (h.mul_two_pow_lt h' hlt), Nat.compare_eq_lt.2 hlt]
    rfl
  · have hpos : 0 < 2 ^ k := by positivity
    rw [Nat.compare_eq_eq.2 rfl, Ordering.eq_then]
    rcases Nat.lt_trichotomy m m' with hlt | rfl | hgt
    · rw [Nat.compare_eq_lt.2 hlt, Nat.compare_eq_lt.2 (Nat.mul_lt_mul_of_pos_right hlt hpos)]
    · rw [Nat.compare_eq_eq.2 rfl, Nat.compare_eq_eq.2 rfl]
    · rw [Nat.compare_eq_gt.2 hgt, Nat.compare_eq_gt.2 (Nat.mul_lt_mul_of_pos_right hgt hpos)]
  · rw [Nat.compare_eq_gt.2 (h'.mul_two_pow_lt h hgt), Nat.compare_eq_gt.2 hgt]
    rfl

/-- Floats without a minus sign are compared by their units. -/
theorem compare_ofCount (hm : Representable m) (hn : Representable n) (hm' : m < limit)
    (hn' : n < limit) :
    UnpackedFloat.compare (ofCount .positive m) (ofCount .positive n) = some (compare m n) := by
  rcases Nat.eq_zero_or_pos m with rfl | hpos <;> rcases Nat.eq_zero_or_pos n with rfl | hpos'
  · rfl
  · rw [Nat.compare_eq_lt.2 hpos', ofCount_zero, ofCount, dif_neg hpos'.ne']
    rfl
  · rw [Nat.compare_eq_gt.2 hpos, ofCount_zero, ofCount, dif_neg hpos.ne']
    rfl
  · obtain ⟨m, k, hc, rfl⟩ := hm.exists_canonical hpos hm'
    obtain ⟨n, k', hc', rfl⟩ := hn.exists_canonical hpos' hn'
    rw [ofCount_mul hc.lt hc.normal hc.pos, ofCount_mul hc'.lt hc'.normal hc'.pos,
      compare_mul_two_pow hc hc']
    have hexponent : compare ((k : ℤ) - 1074) (k' - 1074) = compare k k' := by
      rcases Nat.lt_trichotomy k k' with hlt | rfl | hgt
      · rw [Nat.compare_eq_lt.2 hlt, Int.compare_eq_lt.2 (by omega)]
      · rw [Nat.compare_eq_eq.2 rfl, Int.compare_eq_eq.2 rfl]
      · rw [Nat.compare_eq_gt.2 hgt, Int.compare_eq_gt.2 (by omega)]
    rw [← hexponent]
    rfl

section Comparing

variable (hx : x.isFinite = true) (hy : y.isFinite = true) (hx' : isNegative x = false)
  (hy' : isNegative y = false)

include hx hy hx' hy'

theorem compare_unpack : x.toModel.unpack.compare y.toModel.unpack =
    some (compare (units x) (units y)) := by
  rw [unpack_eq_ofCount hx, unpack_eq_ofCount hy, hx', hy']
  exact compare_ofCount (representable_units hx) (representable_units hy) (units_lt_limit hx)
    (units_lt_limit hy)

theorem lt_iff_units_lt : x < y ↔ units x < units y := by
  have hlt : x < y ↔ x.toModel.unpack.lt y.toModel.unpack = true := by
    change Float.lt x y = true ↔ _
    unfold Float.lt
    rw [decide_eq_true_eq]
    rfl
  rw [hlt, UnpackedFloat.lt, compare_unpack hx hy hx' hy', ← Nat.compare_eq_lt]
  simp

theorem le_iff_units_le : x ≤ y ↔ units x ≤ units y := by
  have hle : x ≤ y ↔ x.toModel.unpack.le y.toModel.unpack = true := by
    change Float.le x y = true ↔ _
    unfold Float.le
    rw [decide_eq_true_eq]
    rfl
  rw [hle, UnpackedFloat.le, compare_unpack hx hy hx' hy', ← Nat.isLE_compare]
  simp

end Comparing

end KeypadCalc.Binary64
