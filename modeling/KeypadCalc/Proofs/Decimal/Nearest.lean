import KeypadCalc.Decimal
import KeypadCalc.Proofs.Binary64.Operations

/-! The float nearest to a decimal is its value in units, rounded once. -/

namespace KeypadCalc.Decimal

open Binary64
open Float.Model (Format UnpackedFloat)
open Float.Model.UnpackedFloat

variable {d : Decimal} {u : ℚ}

/-- The number that a decimal stands for. -/
def value (d : Decimal) : ℚ := d.significand * 10 ^ d.exponent

theorem ofScientific_of_large {m : ℕ} {e : ℤ} (hm : m ≠ 0) (he : 2048 < e) :
    limit ≤ roundUnits (m * 10 ^ e * one) := by
  obtain ⟨k, rfl⟩ : ∃ k : ℕ, e = k := ⟨e.toNat, by omega⟩
  obtain ⟨j, hj, hone⟩ := exists_one_eq (Nat.zero_le 1074)
  have hle : 2 ^ (k + j) ≤ m * 10 ^ k * one := by
    rw [hone, pow_zero, one_mul, pow_add]
    calc
      2 ^ k * 2 ^ j ≤ 10 ^ k * 2 ^ j :=
        Nat.mul_le_mul_right _ (Nat.pow_le_pow_left (by decide) k)
      _ ≤ m * 10 ^ k * 2 ^ j :=
        Nat.mul_le_mul_right _ (Nat.le_mul_of_pos_left _ (Nat.pos_of_ne_zero hm))
  calc
    limit ≤ 2 ^ (k + j) := limit_le_two_pow (by omega)
    _ = roundUnits (2 ^ (k + j) : ℕ) := (representable_two_pow (k + j)).roundUnits_eq.symm
    _ ≤ roundUnits (m * 10 ^ (k : ℤ) * one) := by
      refine roundUnits_mono (Nat.cast_nonneg _) ?_
      rw [zpow_natCast]
      exact_mod_cast hle

theorem ofScientific_of_small {m : ℕ} {e : ℤ} (he : e < -(2048 + m.log2)) :
    roundUnits (m * 10 ^ e * one) = 0 := by
  obtain ⟨k, rfl⟩ : ∃ k : ℕ, e = -k := ⟨(-e).toNat, by omega⟩
  obtain ⟨j, hj, hone⟩ := exists_one_eq (Nat.zero_le 1074)
  rw [hone, pow_zero, one_mul]
  clear hone
  have hlt : 2 * (m * 2 ^ j) < 10 ^ k := by
    calc
      2 * (m * 2 ^ j) < 2 * (2 ^ (m.log2 + 1) * 2 ^ j) :=
        Nat.mul_lt_mul_of_pos_left
          (Nat.mul_lt_mul_of_pos_right Nat.lt_log2_self (by positivity)) (by decide)
      _ = 2 ^ (m.log2 + 1 + j + 1) := by ring
      _ ≤ 2 ^ k := Nat.pow_le_pow_right (by decide) (by omega)
      _ ≤ 10 ^ k := Nat.pow_le_pow_left (by decide) k
  have hlt' : 2 * ((m : ℚ) * (2 ^ j : ℕ)) < 10 ^ k := by exact_mod_cast hlt
  have hpos : (0 : ℚ) < 10 ^ k := by positivity
  have hmul : (m : ℚ) * 10 ^ (-(k : ℤ)) * (2 ^ j : ℕ) = m * (2 ^ j : ℕ) / 10 ^ k := by
    rw [zpow_neg, zpow_natCast]
    ring
  rw [hmul]
  apply roundUnits_of_lt_half
  · positivity
  · rw [div_lt_iff₀ hpos]
    linarith

theorem unpacked_ofScientific (m : ℕ) (e : ℤ) :
    pack Format.binary64 (ofScientific Format.binary64 m e) =
      pack Format.binary64 (ofCount .positive (roundUnits (m * 10 ^ e * one))) := by
  unfold ofScientific
  split_ifs with h0 hlarge hsmall hpos
  · rw [h0, Nat.cast_zero, zero_mul, zero_mul, roundUnits_zero, ofCount_zero]
  · rw [pack_ofCount_of_le (ofScientific_of_large h0 (by simpa using hlarge))]
  · rw [ofScientific_of_small (by simpa using hsmall), ofCount_zero]
  · obtain ⟨k, rfl⟩ : ∃ k : ℕ, e = k := ⟨e.toNat, by omega⟩
    have hbits : Format.binary64.mantissaBits = 53 := rfl
    have hlog : 52 ≤ (m <<< 53 * 10 ^ k).log2 := by
      have hle : 2 ^ 52 ≤ m <<< 53 * 10 ^ k := by
        rw [Nat.shiftLeft_eq]
        calc
          2 ^ 52 ≤ m * 2 ^ 53 := by omega
          _ ≤ m * 2 ^ 53 * 10 ^ k := Nat.le_mul_of_pos_right _ (by positivity)
      exact (Nat.le_log2 (by omega)).2 hle
    have hshift := shiftLeft_mul_zpow m 53 1074
    simp only [hbits, Int.toNat_natCast]
    rw [mul_finite _ _ (.inl hlog)]
    refine congrArg (fun u => pack _ (ofCount _ (roundUnits u))) ?_
    rw [show -((53 : ℕ) : ℤ) + 0 + 1074 = 1074 - (53 : ℕ) by omega, mul_right_comm, hshift,
      ← one_eq_zpow, mul_right_comm, zpow_natCast, Nat.cast_pow, Nat.cast_ofNat]
  · obtain ⟨k, rfl⟩ : ∃ k : ℕ, e = -k := ⟨(-e).toNat, by omega⟩
    simp only [neg_neg, Int.toNat_natCast]
    rw [div_finite]
    refine congrArg (fun u => pack _ (ofCount _ (roundUnits u))) ?_
    rw [sub_zero, zero_add, ← one_eq_zpow, zpow_neg, zpow_natCast, Nat.cast_pow, Nat.cast_ofNat,
      div_eq_mul_inv]

theorem toFloat_eq_rounded (d : Decimal) : d.toFloat = rounded false (d.value * one) := by
  obtain ⟨m, e⟩ := d
  have h := unpacked_ofScientific m e
  unfold toFloat value rounded Float.Model.ofScientific Float.Model.pack
  simp only [h]
  rfl

end KeypadCalc.Decimal
