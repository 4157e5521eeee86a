import KeypadCalc.Binary64
import KeypadCalc.Proofs.Binary64.Rounding
import Mathlib

/-! Floats as a sign and a number of units. `ofCount` is the unpacked float with a given number of
units; packing it and unpacking it again gives it back unless it is too large, and every finite
float comes from one. Rounding a mantissa with its exponent gives `ofCount` of the nearest number
of units. -/

namespace KeypadCalc.Binary64

open Float.Model (Format UnpackedFloat)
open Float.Model.UnpackedFloat

/-! ### Unpacked floats of a number of units -/

/-- The unpacked float with a sign and a number of units. -/
def ofCount (s : Sign) (n : ℕ) : UnpackedFloat :=
  if h : n = 0 then .zero s
  else .finite s (n / 2 ^ (n.log2 - 52)) ((n.log2 - 52 : ℕ) - 1074)
    (Nat.div_pos (Nat.le_trans (Nat.pow_le_pow_right (by decide) (by omega))
      (Nat.log2_self_le h)) (by positivity))

@[simp] theorem ofCount_zero (s : Sign) : ofCount s 0 = .zero s := rfl

/-- A mantissa at the place of the floats around it. -/
theorem ofCount_mul {s : Sign} {m k : ℕ} (hm : m < 2 ^ 53) (hk : k = 0 ∨ 2 ^ 52 ≤ m)
    (hpos : 0 < m) : ofCount s (m * 2 ^ k) = .finite s m (k - 1074) hpos := by
  have hne : m * 2 ^ k ≠ 0 := by positivity
  have hshift : (m * 2 ^ k).log2 - 52 = k := by
    have hlog : (m * 2 ^ k).log2 = m.log2 + k := by
      rw [Nat.log2_eq_iff hne]
      constructor
      · rw [pow_add]
        exact Nat.mul_le_mul_right _ (Nat.log2_self_le hpos.ne')
      · rw [show m.log2 + k + 1 = m.log2 + 1 + k by omega, pow_add]
        exact Nat.mul_lt_mul_of_pos_right Nat.lt_log2_self (by positivity)
    have hlt : m.log2 < 53 := (Nat.log2_lt hpos.ne').2 hm
    rcases hk with rfl | hk
    · omega
    · have : 52 ≤ m.log2 := (Nat.le_log2 hpos.ne').2 hk
      omega
  simp only [ofCount, hne, dite_false, hshift]
  congr 1
  exact Nat.mul_div_cancel m (by positivity)

/-- The least number of units that is too large for a float. -/
@[irreducible] def limit : ℕ := 2 ^ 2098

theorem limit_le_two_pow {j : ℕ} (h : 2098 ≤ j) : limit ≤ 2 ^ j := by
  unfold limit
  exact pow_le_pow_right₀ (by decide) h

theorem two_pow_le_limit {j : ℕ} (h : j ≤ 2098) : 2 ^ j ≤ limit := by
  unfold limit
  exact pow_le_pow_right₀ (by decide) h

theorem toNat_one_append (m : BitVec 52) : (1#1 ++ m).toNat = 2 ^ 52 + m.toNat := by
  rw [BitVec.toNat_append, ← Nat.shiftLeft_add_eq_or_of_lt m.isLt]
  simp [Nat.shiftLeft_eq]

/-- An unpacked float that packing keeps: its mantissa has 53 digits, or fewer at the least
exponent, and its exponent is not too large. -/
structure IsCanonical (m : ℕ) (k : ℕ) : Prop where
  pos : 0 < m
  lt : m < 2 ^ 53
  normal : k = 0 ∨ 2 ^ 52 ≤ m
  bounded : k ≤ 2045

/-! ### Unpacking -/

/-- The number of units with a stored exponent and a stored mantissa. -/
def storedCount (e : BitVec 11) (m : BitVec 52) : ℕ :=
  if e = 0#11 then m.toNat else (2 ^ 52 + m.toNat) * 2 ^ (e.toNat - 1)

/-- The canonical mantissa and exponent that are stored, unless the float is zero. -/
theorem isCanonical_stored {e : BitVec 11} {m : BitVec 52} (hmax : e ≠ -1#11)
    (_ : e ≠ 0#11) : IsCanonical (2 ^ 52 + m.toNat) (e.toNat - 1) := by
  have hmlt := m.isLt
  have helt := e.isLt
  have hne : e.toNat ≠ 2047 := fun h => hmax (BitVec.eq_of_toNat_eq (by simpa using h))
  exact ⟨by omega, by omega, .inr (by omega), by omega⟩

theorem unpack_packComponents {s : Sign} {e : BitVec 11} {m : BitVec 52} (hmax : e ≠ -1#11) :
    unpack Format.binary64 (packComponents Format.binary64 s e m) =
      ofCount s (storedCount e m) := by
  have hmlt := m.isLt
  unfold unpack
  simp only [unpackMantissa_packComponents, unpackExponent_packComponents,
    unpackSign_packComponents, Sign.ofBitVec_toBitVec]
  rw [if_neg hmax]
  by_cases hmin : e = 0#11
  · subst hmin
    by_cases hm0 : m = 0#52
    · subst hm0
      rfl
    · have hpos : 0 < m.toNat :=
        Nat.pos_of_ne_zero fun h => hm0 (BitVec.eq_of_toNat_eq (by simpa using h))
      have hcount := ofCount_mul (s := s) (k := 0) (by omega : m.toNat < 2 ^ 53) (.inl rfl) hpos
      rw [pow_zero, mul_one] at hcount
      rw [if_pos rfl, dif_neg hm0, storedCount, if_pos rfl, hcount]
      rfl
  · have hc := isCanonical_stored (m := m) hmax hmin
    have he0 : e.toNat ≠ 0 := fun h => hmin (BitVec.eq_of_toNat_eq (by simpa using h))
    rw [if_neg hmin, storedCount, if_neg hmin, ofCount_mul hc.lt hc.normal hc.pos]
    congr 1
    · exact toNat_one_append m
    · simp only [Format.exponentBias]
      omega

/-- What unpacking gives: no number, an infinity, or the float with a number of units. -/
theorem unpack_cases (b : BitVec Format.binary64.numBits) :
    unpack Format.binary64 b = .notANumber ∨ (∃ s, unpack Format.binary64 b = .infinity s) ∨
      ∃ s n, Representable n ∧ n < limit ∧ unpack Format.binary64 b = ofCount s n := by
  rw [← packComponents_unpackSign_unpackExponent_unpackMantissa b]
  generalize Sign.ofBitVec (unpackSign b) = s
  generalize unpackMantissa b = m
  generalize unpackExponent b = e
  by_cases hmax : e = -1#11
  · by_cases hm0 : m = 0#52
    · refine .inr (.inl ⟨s, ?_⟩)
      simp [unpack, hmax, hm0]
    · refine .inl ?_
      simp [unpack, hmax, hm0]
  · refine .inr (.inr ⟨s, storedCount e m, ?_, ?_, unpack_packComponents hmax⟩)
    · unfold storedCount
      split
      · exact representable_of_le (Nat.le_trans m.isLt.le (by decide))
      · rename_i hmin
        exact (representable_of_le (isCanonical_stored hmax hmin).lt.le).mul_two_pow _
    · unfold storedCount
      split
      · exact Nat.lt_of_lt_of_le m.isLt (two_pow_le_limit (j := 52) (by decide))
      · rename_i hmin
        have hc := isCanonical_stored (m := m) hmax hmin
        have hk := hc.bounded
        calc
          (2 ^ 52 + m.toNat) * 2 ^ (e.toNat - 1) < 2 ^ 53 * 2 ^ (e.toNat - 1) :=
            Nat.mul_lt_mul_of_pos_right hc.lt (by positivity)
          _ = 2 ^ (53 + (e.toNat - 1)) := (pow_add ..).symm
          _ ≤ limit := two_pow_le_limit (by omega)

/-! ### Packing -/

theorem biasedExponent_eq (k : ℕ) :
    ((k : ℤ) - 1074 + Format.binary64.exponentBias + (52 : ℕ)).toNat = k + 1 := by
  simp only [Format.exponentBias]
  omega

/-- The leading digit of a full mantissa is not stored. -/
theorem pack_of_full {s : Sign} {m k : ℕ} (h : IsCanonical m k) (hfull : 2 ^ 52 ≤ m) :
    pack Format.binary64 (.finite s m (k - 1074) h.pos) =
      packComponents Format.binary64 s (BitVec.ofNat 11 (k + 1)) (BitVec.ofNat 52 m) := by
  have hbound := h.bounded
  have hlog : 52 ≤ m.log2 := (Nat.le_log2 h.pos.ne').2 hfull
  have hlog' : m.log2 < 53 := (Nat.log2_lt h.pos.ne').2 h.lt
  unfold pack
  simp only [biasedExponent_eq]
  rw [if_neg (by omega), if_pos (by simp only [Format.mantissaBits]; omega)]

theorem pack_of_short {s : Sign} {m : ℕ} (hpos : 0 < m) (hshort : m < 2 ^ 52) :
    pack Format.binary64 (.finite s m ((0 : ℕ) - 1074) hpos) =
      packComponents Format.binary64 s 0#11 (BitVec.ofNat 52 m) := by
  have hlog : m.log2 < 52 := (Nat.log2_lt hpos.ne').2 hshort
  unfold pack
  simp only [biasedExponent_eq]
  rw [if_neg (by omega), if_neg (by simp only [Format.mantissaBits]; omega)]

theorem storedCount_of_full {m k : ℕ} (h : IsCanonical m k) (hfull : 2 ^ 52 ≤ m) :
    BitVec.ofNat 11 (k + 1) ≠ -1#11 ∧
      storedCount (BitVec.ofNat 11 (k + 1)) (BitVec.ofNat 52 m) = m * 2 ^ k := by
  have hbound := h.bounded
  have hlt := h.lt
  have hexponent : (BitVec.ofNat 11 (k + 1)).toNat = k + 1 := by
    rw [BitVec.toNat_ofNat, Nat.mod_eq_of_lt (by omega)]
  have hmantissa : 2 ^ 52 + (BitVec.ofNat 52 m).toNat = m := by
    rw [BitVec.toNat_ofNat]
    omega
  have hinfinity : BitVec.ofNat 11 (k + 1) ≠ -1#11 := fun heq => by
    have := hexponent.symm.trans (congrArg BitVec.toNat heq)
    rw [show (-1#11).toNat = 2047 from rfl] at this
    omega
  have hzero : BitVec.ofNat 11 (k + 1) ≠ 0#11 := fun heq =>
    absurd (hexponent.symm.trans (congrArg BitVec.toNat heq)) (Nat.succ_ne_zero k)
  rw [storedCount, if_neg hzero, hexponent, hmantissa, Nat.add_sub_cancel]
  exact ⟨hinfinity, rfl⟩

/-- A number of units that is not zero and belongs to a float is that of a canonical one. -/
theorem Representable.exists_canonical {n : ℕ} (h : Representable n) (hpos : 0 < n)
    (hlt : n < limit) : ∃ m k, IsCanonical m k ∧ n = m * 2 ^ k := by
  obtain ⟨m, hm⟩ := h.dvd
  rw [mul_comm] at hm
  have hhi := lt_two_pow_spacing (n : ℚ)
  have hlo := two_pow_spacing_le (u := n) (Nat.cast_nonneg n)
  generalize spacing (n : ℚ) = k at *
  have hhi' : n < 2 ^ (k + 53) := by exact_mod_cast hhi
  refine ⟨m, k, ⟨?_, ?_, ?_, ?_⟩, hm⟩
  · rcases Nat.eq_zero_or_pos m with rfl | hmpos
    · omega
    · exact hmpos
  · rw [hm, pow_add, mul_comm] at hhi'
    exact Nat.lt_of_mul_lt_mul_left hhi'
  · refine hlo.imp id fun hlo => ?_
    have hlo' : 2 ^ (k + 52) ≤ n := by exact_mod_cast hlo
    rw [hm, pow_add, mul_comm] at hlo'
    exact Nat.le_of_mul_le_mul_right hlo' (by positivity)
  · by_contra hk
    have hlo' : 2 ^ (k + 52) ≤ n := by exact_mod_cast hlo.resolve_left (by omega)
    have hge := limit_le_two_pow (show 2098 ≤ k + 52 by omega)
    omega

theorem unpack_pack_ofCount {s : Sign} {n : ℕ} (h : Representable n) (hlt : n < limit) :
    unpack Format.binary64 (pack Format.binary64 (ofCount s n)) = ofCount s n := by
  rcases Nat.eq_zero_or_pos n with rfl | hpos
  · cases s <;> rfl
  obtain ⟨m, k, hc, rfl⟩ := h.exists_canonical hpos hlt
  conv_lhs => rw [ofCount_mul hc.lt hc.normal hc.pos]
  rcases Nat.lt_or_ge m (2 ^ 52) with hshort | hfull
  · obtain rfl := hc.normal.resolve_right (Nat.not_le.2 hshort)
    have hmantissa : (BitVec.ofNat 52 m).toNat = m := by
      rw [BitVec.toNat_ofNat, Nat.mod_eq_of_lt hshort]
    rw [pack_of_short hc.pos hshort, unpack_packComponents (by decide), storedCount, if_pos rfl,
      hmantissa, pow_zero, mul_one]
  · obtain ⟨hinfinity, hcount⟩ := storedCount_of_full hc hfull
    rw [pack_of_full hc hfull, unpack_packComponents hinfinity, hcount]

/-- A number of units that is too large becomes an infinity. -/
theorem pack_ofCount_of_le {s : Sign} {n : ℕ} (hle : limit ≤ n) :
    pack Format.binary64 (ofCount s n) = pack Format.binary64 (.infinity s) := by
  have hpos : n ≠ 0 := by
    have := two_pow_le_limit (Nat.zero_le 2098)
    omega
  have hlog : 2098 ≤ n.log2 := by
    by_contra h
    have h1 := two_pow_le_limit (show n.log2 + 1 ≤ 2098 by omega)
    have h2 := Nat.lt_log2_self (n := n)
    omega
  simp only [ofCount, hpos, dite_false, pack, biasedExponent_eq]
  rw [if_pos]
  rw [show (2 : ℕ) ^ 11 = 2048 from rfl]
  omega

end KeypadCalc.Binary64
