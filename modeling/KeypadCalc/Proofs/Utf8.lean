import KeypadCalc.Text.Utf8
import Mathlib.Tactic.SplitIfs

/-! Bytes in UTF-8 are scanned back to the characters that they were encoded from. Only such bytes
are decoded, and a byte below 128 stands in them for its own character and for nothing else. -/

namespace KeypadCalc.Utf8

variable {bytes : Bytes} {t : Text} {c : Char} {b : UInt8}

/-! ### Encoding and scanning -/

theorem length_utf8EncodeChar_le (c : Char) : (String.utf8EncodeChar c).length ≤ 4 := by
  rw [String.length_utf8EncodeChar]
  exact Char.utf8Size_le_four c

theorem first?_append (c : Char) (rest : Bytes) :
    first? (String.utf8EncodeChar c ++ rest) = some c := by
  have htake : (String.utf8EncodeChar c ++ rest).take 4 =
      String.utf8EncodeChar c ++ rest.take (4 - (String.utf8EncodeChar c).length) := by
    rw [List.take_append, List.take_of_length_le (length_utf8EncodeChar_le c)]
  rw [first?, htake, List.toByteArray_append]
  exact ByteArray.utf8DecodeChar?_utf8EncodeChar_append

theorem scan_append (c : Char) (rest : Bytes) :
    scan (String.utf8EncodeChar c ++ rest) = some c :: scan rest := by
  have hlength := String.length_utf8EncodeChar c
  have hpos := Char.utf8Size_pos c
  have hfirst := first?_append c rest
  cases hbytes : String.utf8EncodeChar c with
  | nil =>
    rw [hbytes, List.length_nil] at hlength
    omega
  | cons b bs =>
    rw [hbytes, List.length_cons] at hlength
    rw [hbytes, List.cons_append] at hfirst
    rw [List.cons_append, scan, hfirst]
    simp only
    rw [List.drop_append_of_le_length (by omega), List.drop_of_length_le (by omega),
      List.nil_append]

/-- Encoding a text leaves no gaps and loses nothing. -/
theorem scan_encode (t : Text) : scan (encode t) = t.map some := by
  induction t with
  | nil => rw [encode, List.flatMap_nil, scan, List.map_nil]
  | cons c t ih =>
    rw [encode, List.flatMap_cons, scan_append, List.map_cons]
    exact congrArg _ ih

@[simp] theorem encode_nil : encode [] = [] := rfl

theorem encode_append (t u : Text) : encode (t ++ u) = encode t ++ encode u := List.flatMap_append

theorem encode_eq_nil_iff : encode t = [] ↔ t = [] := by
  cases t with
  | nil => exact iff_of_true rfl rfl
  | cons c t => simp [encode, String.utf8EncodeChar_ne_nil]

/-! ### Decoding -/

theorem exists_append_of_first? (h : first? bytes = some c) :
    ∃ rest, bytes = String.utf8EncodeChar c ++ rest := by
  obtain ⟨tail, htail⟩ := ByteArray.exists_of_utf8DecodeChar?_eq_some h
  have htake : bytes.take 4 = String.utf8EncodeChar c ++ tail.data.toList := by
    rw [← List.toByteArray_inj, htail, List.toByteArray_append]
    congr 1
    exact ByteArray.ext (by rw [List.data_toByteArray])
  refine ⟨tail.data.toList ++ bytes.drop 4, ?_⟩
  rw [← List.append_assoc, ← htake, List.take_append_drop]

theorem eq_encode_of_scan (h : scan bytes = t.map some) : bytes = encode t := by
  induction t generalizing bytes with
  | nil =>
    cases bytes with
    | nil => rfl
    | cons b bytes =>
      rw [scan] at h
      split at h <;> cases h
  | cons c t ih =>
    have hfirst : first? bytes = some c := by
      cases bytes with
      | nil =>
        rw [scan] at h
        cases h
      | cons b bytes =>
        rw [scan] at h
        split at h
        · rename_i hfirst
          rw [hfirst, (List.cons.inj h).1]
        · cases (List.cons.inj h).1
    obtain ⟨rest, rfl⟩ := exists_append_of_first? hfirst
    rw [scan_append, List.map_cons] at h
    rw [ih (List.cons.inj h).2]
    rfl

theorem mapM_id_eq_some_iff {α : Type} {l : List (Option α)} {l' : List α} :
    l.mapM id = some l' ↔ l = l'.map some := by
  induction l generalizing l' with
  | nil => cases l' <;> simp
  | cons x l ih =>
    cases x with
    | none => cases l' <;> simp
    | some a =>
      have hcons : (some a :: l).mapM id = (l.mapM id).map (a :: ·) := by
        cases hl : l.mapM id <;> simp [hl]
      cases l' with
      | nil => simp [hcons]
      | cons b l' =>
        simp only [hcons, Option.map_eq_some_iff, ih, List.map_cons, List.cons.injEq,
          Option.some.injEq]
        constructor
        · rintro ⟨m, hm, rfl, rfl⟩
          exact ⟨rfl, hm⟩
        · rintro ⟨rfl, hm⟩
          exact ⟨l', hm, rfl, rfl⟩

/-- The bytes that are decoded to a text are those that it is encoded as. -/
theorem decode?_eq_some_iff : decode? bytes = some t ↔ bytes = encode t := by
  rw [decode?, mapM_id_eq_some_iff]
  refine ⟨eq_encode_of_scan, ?_⟩
  rintro rfl
  exact scan_encode t

@[simp] theorem decode?_encode (t : Text) : decode? (encode t) = some t :=
  decode?_eq_some_iff.2 rfl

/-! ### Bytes below 128 -/

theorem mem_utf8EncodeChar_iff (hb : b < 128) :
    b ∈ String.utf8EncodeChar c ↔ c = Char.ofUInt8 b := by
  have hc : c = Char.ofUInt8 b ↔ c.val.toNat = b.toNat := by
    rw [← Char.toNat_inj]
    rfl
  have hlt : b.toNat < 128 := hb
  rw [hc, String.utf8EncodeChar]
  -- A character is one byte below 128, or two to four bytes from there on.
  split_ifs
  all_goals
    simp only [List.mem_cons, List.not_mem_nil, or_false, ← UInt8.toNat_inj, UInt8.toNat_ofNat']
    omega

theorem mem_encode_iff (hb : b < 128) : b ∈ encode t ↔ Char.ofUInt8 b ∈ t := by
  simp only [encode, List.mem_flatMap, mem_utf8EncodeChar_iff hb]
  exact exists_eq_right

end KeypadCalc.Utf8
