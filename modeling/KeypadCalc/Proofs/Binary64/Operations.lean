import KeypadCalc.Proofs.Binary64.Arithmetic

/-! Floats as rounded numbers of units. Every finite float is `rounded` of its sign and its units,
and the operations on finite floats are the rational ones, rounded. -/

namespace KeypadCalc.Binary64

open Float.Model (Format UnpackedFloat)
open Float.Model.UnpackedFloat

variable {x y v : Float} {b : Bool} {u w : ℚ} {n : ℕ}

/-- The sign of a float with a minus sign or without. -/
def signOf (negative : Bool) : Sign := if negative then .negative else .positive

@[simp] theorem signOf_false : signOf false = .positive := rfl

@[simp] theorem signOf_true : signOf true = .negative := rfl

/-- The float nearest to a number of units, with a minus sign or without. -/
def rounded (negative : Bool) (u : ℚ) : Float :=
  .ofModel (.pack (ofCount (signOf negative) (roundUnits u)))

theorem rounded_congr (h : roundUnits u = roundUnits w) :
    rounded b u = rounded b w := by
  rw [rounded, rounded, h]

/-! ### Parts of a rounded number -/

theorem unpack_ofModel_pack (f : UnpackedFloat) :
    (Float.ofModel (.pack f)).toModel.unpack =
      unpack Format.binary64 (pack Format.binary64 f) := rfl

theorem unpack_rounded (h : roundUnits u < limit) :
    (rounded b u).toModel.unpack = ofCount (signOf b) (roundUnits u) := by
  rw [rounded, unpack_ofModel_pack, unpack_pack_ofCount (representable_roundUnits u) h]

theorem unpack_rounded_of_le (h : limit ≤ roundUnits u) :
    (rounded b u).toModel.unpack = .infinity (signOf b) := by
  rw [rounded, unpack_ofModel_pack, pack_ofCount_of_le h]
  cases b <;> rfl

theorem isFinite_ofCount (s : Sign) (n : ℕ) : (ofCount s n).isFinite = true := by
  unfold ofCount
  split <;> rfl

@[simp] theorem isFinite_rounded : (rounded b u).isFinite = true ↔ roundUnits u < limit := by
  change (rounded b u).toModel.unpack.isFinite = true ↔ _
  by_cases h : roundUnits u < limit
  · simp [unpack_rounded h, isFinite_ofCount, h]
  · simp [unpack_rounded_of_le (not_lt.1 h), UnpackedFloat.isFinite, h]

@[simp] theorem isNaN_rounded : (rounded b u).isNaN = false := by
  change (rounded b u).toModel.unpack.isNaN = false
  by_cases h : roundUnits u < limit
  · rw [unpack_rounded h, ofCount]
    split <;> rfl
  · rw [unpack_rounded_of_le (not_lt.1 h)]
    rfl

@[simp] theorem isInf_rounded : (rounded b u).isInf = true ↔ limit ≤ roundUnits u := by
  change (rounded b u).toModel.unpack.isInf = true ↔ _
  by_cases h : roundUnits u < limit
  · have : (ofCount (signOf b) (roundUnits u)).isInf = false := by
      unfold ofCount
      split <;> rfl
    simp [unpack_rounded h, this, h]
  · simp [unpack_rounded_of_le (not_lt.1 h), UnpackedFloat.isInf, not_lt.1 h]

/-- The sign of an unpacked float. -/
theorem signOf_of_unpack {s : Sign} (h : v.toModel.unpack = ofCount s n) :
    signOf (isNegative v) = s := by
  unfold isNegative
  rw [h]
  by_cases h0 : n = 0
  · rw [h0]
    cases s <;> rfl
  · simp only [ofCount, h0, dite_false]
    cases s <;> rfl

@[simp] theorem isNegative_rounded : isNegative (rounded b u) = b := by
  by_cases h : roundUnits u < limit
  · have := signOf_of_unpack (unpack_rounded (b := b) h)
    revert this
    cases isNegative (rounded b u) <;> cases b <;> simp
  · unfold isNegative
    rw [unpack_rounded_of_le (not_lt.1 h)]
    cases b <;> rfl

/-- The units of an unpacked float. -/
theorem units_of_unpack {s : Sign} (hn : Representable n) (hlt : n < limit)
    (h : v.toModel.unpack = ofCount s n) : units v = n := by
  unfold units
  rw [h]
  rcases Nat.eq_zero_or_pos n with rfl | hpos
  · rfl
  · obtain ⟨m, k, hc, rfl⟩ := hn.exists_canonical hpos hlt
    rw [ofCount_mul hc.lt hc.normal hc.pos]
    simp

theorem units_rounded (h : roundUnits u < limit) : units (rounded b u) = roundUnits u :=
  units_of_unpack (representable_roundUnits u) h (unpack_rounded h)

theorem rounded_eq_rounded_iff (h : roundUnits w < limit) :
    rounded b u = rounded b w ↔ roundUnits u = roundUnits w := by
  constructor
  · intro heq
    have hfin : roundUnits u < limit := by
      rw [← isFinite_rounded (b := b), heq, isFinite_rounded]
      exact h
    rw [← units_rounded (b := b) hfin, heq, units_rounded h]
  · exact rounded_congr

/-! ### Finite floats -/

/-- What a finite float is made of. -/
theorem unpack_of_isFinite (h : v.isFinite = true) :
    Representable (units v) ∧ units v < limit ∧
      v.toModel.unpack = ofCount (signOf (isNegative v)) (units v) := by
  change v.toModel.unpack.isFinite = true at h
  rcases unpack_cases v.toModel.toBits.toBitVec with hnan | ⟨s, hinf⟩ | ⟨s, n, hn, hlt, heq⟩
  · rw [Float.Model.unpack, hnan] at h
    simp [UnpackedFloat.isFinite] at h
  · rw [Float.Model.unpack, hinf] at h
    simp [UnpackedFloat.isFinite] at h
  · have hunits := units_of_unpack hn hlt heq
    rw [hunits, signOf_of_unpack heq]
    exact ⟨hn, hlt, heq⟩

theorem representable_units (h : v.isFinite = true) : Representable (units v) :=
  (unpack_of_isFinite h).1

theorem units_lt_limit (h : v.isFinite = true) : units v < limit := (unpack_of_isFinite h).2.1

theorem unpack_eq_ofCount (h : v.isFinite = true) :
    v.toModel.unpack = ofCount (signOf (isNegative v)) (units v) := (unpack_of_isFinite h).2.2

/-- A float is made up of its unpacked parts. -/
theorem pack_unpack_toModel (v : Float) : .ofModel (.pack v.toModel.unpack) = v := by
  obtain ⟨⟨bits, hvalid⟩⟩ := v
  have hbits : (Float.Model.pack (Float.Model.unpack ⟨bits, hvalid⟩)).toBits = bits :=
    congrArg UInt64.ofBitVec (pack_unpack_of_valid hvalid)
  congr 1
  generalize Float.Model.pack (Float.Model.unpack ⟨bits, hvalid⟩) = m at hbits
  obtain ⟨_, _⟩ := m
  subst hbits
  rfl

theorem roundUnits_units (h : v.isFinite = true) : roundUnits (units v) = units v :=
  (representable_units h).roundUnits_eq

/-- A finite float is the one with its sign and its units. -/
theorem eq_rounded (h : v.isFinite = true) : v = rounded (isNegative v) (units v) := by
  rw [rounded, roundUnits_units h, ← unpack_eq_ofCount h, pack_unpack_toModel]

/-! ### Operations -/

theorem signOf_xor (a b : Bool) : signOf a * signOf b = signOf (a ^^ b) := by
  cases a <;> cases b <;> rfl

theorem signOf_xor' (a b : Bool) : signOf a / signOf b = signOf (a ^^ b) := by
  cases a <;> cases b <;> rfl

theorem mul_eq_rounded (hx : x.isFinite = true) (hy : y.isFinite = true) :
    x * y = rounded (isNegative x ^^ isNegative y) (units x * units y / one) := by
  change Float.ofModel (.pack (mul Format.binary64 x.toModel.unpack y.toModel.unpack)) = _
  rw [unpack_eq_ofCount hx, unpack_eq_ofCount hy,
    mul_ofCount (representable_units hx) (representable_units hy) (units_lt_limit hx)
      (units_lt_limit hy), signOf_xor]
  rfl

theorem div_eq_rounded (hx : x.isFinite = true) (hy : y.isFinite = true) (hne : units y ≠ 0) :
    x / y = rounded (isNegative x ^^ isNegative y) (units x / units y * one) := by
  change Float.ofModel (.pack (div Format.binary64 x.toModel.unpack y.toModel.unpack)) = _
  rw [unpack_eq_ofCount hx, unpack_eq_ofCount hy,
    div_ofCount (representable_units hx) (representable_units hy) (units_lt_limit hx)
      (units_lt_limit hy) hne, signOf_xor']
  rfl

theorem neg_eq_rounded (hx : x.isFinite = true) : -x = rounded (!isNegative x) (units x) := by
  change Float.ofModel (.pack x.toModel.unpack.neg) = _
  have hsign : -signOf (isNegative x) = signOf (!isNegative x) := by
    cases isNegative x <;> rfl
  rw [unpack_eq_ofCount hx, neg_ofCount, rounded, roundUnits_units hx, hsign]

/-- The negative of a rounded number is the rounded number with the other sign, infinities
included. -/
theorem neg_rounded : -rounded b u = rounded (!b) u := by
  by_cases h : roundUnits u < limit
  · rw [neg_eq_rounded (isFinite_rounded.2 h), isNegative_rounded, units_rounded h]
    exact rounded_congr (representable_roundUnits u).roundUnits_eq
  · change Float.ofModel (.pack (rounded b u).toModel.unpack.neg) = _
    rw [unpack_rounded_of_le (not_lt.1 h)]
    unfold rounded Float.Model.pack
    simp only [pack_ofCount_of_le (not_lt.1 h)]
    cases b <;> rfl

theorem abs_eq_rounded (hx : x.isFinite = true) : x.abs = rounded false (units x) := by
  change Float.ofModel (.pack x.toModel.unpack.abs) = _
  rw [unpack_eq_ofCount hx, abs_ofCount, rounded, roundUnits_units hx]
  rfl

theorem isFinite_neg (hx : x.isFinite = true) : (-x).isFinite = true := by
  rw [neg_eq_rounded hx, isFinite_rounded, roundUnits_units hx]
  exact units_lt_limit hx

theorem isNegative_neg (hx : x.isFinite = true) : isNegative (-x) = !isNegative x := by
  rw [neg_eq_rounded hx, isNegative_rounded]

theorem units_neg (hx : x.isFinite = true) : units (-x) = units x := by
  have hlt : roundUnits (units x) < limit := by
    rw [roundUnits_units hx]
    exact units_lt_limit hx
  rw [neg_eq_rounded hx, units_rounded hlt, roundUnits_units hx]

theorem neg_neg_of_isFinite (hx : x.isFinite = true) : -(-x) = x := by
  rw [neg_eq_rounded (isFinite_neg hx), isNegative_neg hx, units_neg hx, Bool.not_not,
    ← eq_rounded hx]

theorem units_abs (hx : x.isFinite = true) : units x.abs = units x := by
  have hlt : roundUnits (units x) < limit := by
    rw [roundUnits_units hx]
    exact units_lt_limit hx
  rw [abs_eq_rounded hx, units_rounded hlt, roundUnits_units hx]

theorem isFinite_abs (hx : x.isFinite = true) : x.abs.isFinite = true := by
  rw [abs_eq_rounded hx, isFinite_rounded, roundUnits_units hx]
  exact units_lt_limit hx

theorem isNegative_abs (hx : x.isFinite = true) : isNegative x.abs = false := by
  rw [abs_eq_rounded hx, isNegative_rounded]

theorem abs_abs_float (hx : x.isFinite = true) : x.abs.abs = x.abs := by
  rw [abs_eq_rounded (isFinite_abs hx), units_abs hx, abs_eq_rounded hx]

/-- The signed number of units of a float. -/
def count (v : Float) : ℤ := if isNegative v then -units v else units v

theorem natAbs_count (v : Float) : (count v).natAbs = units v := by
  unfold count
  split <;> simp

theorem isNegative_eq_of_count_ne_zero (hne : count v ≠ 0) :
    isNegative v = decide (count v < 0) := by
  unfold count at hne ⊢
  generalize isNegative v = b at *
  cases b with
  | true =>
    rw [if_pos rfl] at hne ⊢
    exact (decide_eq_true (by omega)).symm
  | false =>
    rw [if_neg (by decide)] at hne ⊢
    exact (decide_eq_false (by omega)).symm

/-- Finite floats that are the same number other than zero are the same. -/
theorem eq_of_count_eq (hx : x.isFinite = true) (hy : y.isFinite = true) (h : count x = count y)
    (hne : count y ≠ 0) : x = y := by
  rw [eq_rounded hx, eq_rounded hy, isNegative_eq_of_count_ne_zero hne,
    isNegative_eq_of_count_ne_zero (h ▸ hne), ← natAbs_count x, ← natAbs_count y, h]

theorem apply_signOf (b : Bool) (n : ℤ) : (signOf b).apply n = if b then -n else n := by
  cases b <;> rfl

/-- The float nearest to a signed number of units; `b` says whether zero has a minus sign. -/
def roundedInt (b : Bool) (z : ℤ) : Float :=
  rounded (if z = 0 then b else decide (z < 0)) z.natAbs

theorem add_eq_rounded (hx : x.isFinite = true) (hy : y.isFinite = true) :
    x + y = roundedInt (isNegative x && isNegative y) (count x + count y) := by
  change Float.ofModel (.pack (add Format.binary64 x.toModel.unpack y.toModel.unpack)) = _
  rw [unpack_eq_ofCount hx, unpack_eq_ofCount hy,
    add_ofCount (representable_units hx) (representable_units hy) (units_lt_limit hx)
      (units_lt_limit hy)]
  simp only [apply_signOf, roundedInt, rounded, roundSigned, ← count.eq_1]
  have hsum : sumSign (signOf (isNegative x)) (signOf (isNegative y)) =
      signOf (isNegative x && isNegative y) := by
    cases isNegative x <;> cases isNegative y <;> rfl
  congr 3
  · by_cases h0 : count x + count y = 0
    · rw [if_pos h0, if_pos h0, hsum]
    · rw [if_neg h0, if_neg h0]
      by_cases hneg : count x + count y < 0 <;> simp [hneg]
  · simp

theorem sub_eq_add_neg_float (hx : x.isFinite = true) (hy : y.isFinite = true) :
    x - y = x + -y := by
  have hneg : (-y).toModel.unpack = ofCount (-signOf (isNegative y)) (units y) := by
    have hsign : -signOf (isNegative y) = signOf (!isNegative y) := by
      cases isNegative y <;> rfl
    rw [unpack_eq_ofCount (isFinite_neg hy), isNegative_neg hy, units_neg hy, hsign]
  change Float.ofModel (.pack (sub Format.binary64 x.toModel.unpack y.toModel.unpack)) =
    Float.ofModel (.pack (add Format.binary64 x.toModel.unpack (-y).toModel.unpack))
  rw [unpack_eq_ofCount hx, unpack_eq_ofCount hy, hneg, sub_ofCount]

theorem count_neg (hx : x.isFinite = true) : count (-x) = -count x := by
  rw [count, count, units_neg hx, isNegative_neg hx]
  cases isNegative x <;> simp

theorem sub_self_float (hx : x.isFinite = true) : x - x = 0.0 := by
  have hcount : count x + count (-x) = 0 := by rw [count_neg hx, add_neg_cancel]
  rw [sub_eq_add_neg_float hx hx, add_eq_rounded hx (isFinite_neg hx), hcount, roundedInt,
    if_pos rfl, isNegative_neg hx, Bool.and_not_self, rounded]
  simp only [Int.natAbs_zero, Nat.cast_zero, roundUnits_zero]
  rfl

theorem floor_of_isWhole (h : isWhole v = true) : floor v = v := by
  rw [floor, h, Bool.or_true, if_pos rfl]

/-- There is nothing to round in a whole float. -/
theorem halfUp_of_isWhole (h : isWhole v = true) : halfUp v = v := by
  have hfin : v.isFinite = true := by
    rw [isWhole, Bool.and_eq_true] at h
    exact h.1
  have hless : ¬(0.0 : Float) ≥ 0.5 := by decide
  rw [halfUp, floor_of_isWhole h, sub_self_float hfin, if_neg hless]

/-- Only the two zeros compare equal to zero. -/
theorem beq_zero_iff (hx : x.isFinite = true) : (x == 0.0) = true ↔ units x = 0 := by
  change x.toModel.unpack.beq (0.0 : Float).toModel.unpack = true ↔ _
  have hzero : (0.0 : Float).toModel.unpack = .zero .positive := rfl
  rw [unpack_eq_ofCount hx, hzero]
  by_cases h0 : units x = 0
  · rw [h0]
    exact ⟨fun _ => rfl, fun _ => rfl⟩
  · simp only [ofCount, h0, dite_false, iff_false]
    cases isNegative x <;> simp [UnpackedFloat.beq, UnpackedFloat.compare]

theorem ofUnits_eq_rounded (b : Bool) (n : ℕ) : ofUnits b n = rounded b n := by
  unfold ofUnits rounded signOf
  rw [round_eq (.inr le_rfl)]
  simp

theorem toFloat_eq_rounded (n : UInt64) : n.toFloat = rounded false (n.toNat * one) := by
  change Float.ofModel (.pack (normalize Format.binary64 (n.toNat : ℤ) 0 .positive)) = _
  rw [normalize_eq, roundSigned, zero_add, ← one_eq_zpow]
  have hsign : (if (n.toNat : ℤ) = 0 then Sign.positive
      else if (n.toNat : ℤ) < 0 then .negative else .positive) = signOf false := by
    split_ifs <;> first | rfl | omega
  rw [hsign, Int.natAbs_natCast]
  rfl

end KeypadCalc.Binary64
