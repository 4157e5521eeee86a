import KeypadCalc.Text.Blank
import Mathlib.Data.List.DropRight

/-! Blanks around a text and between its words. Taking blanks off loses no other character, and the
words of a text are what stands between its blanks. -/

namespace KeypadCalc.Text

variable {rest t u w : Text} {c : Char}

/-! ### Blanks around a text -/

theorem trimEnd_append_blank (t : Text) (hc : isBlank c = true) :
    trimEnd (t ++ [c]) = trimEnd t := by
  rw [trimEnd, trimEnd, List.reverse_append, List.reverse_singleton, List.singleton_append,
    List.dropWhile_cons_of_pos hc]

theorem trim_append_blank (t : Text) (hc : isBlank c = true) : trim (t ++ [c]) = trim t := by
  rw [trim, trim, List.dropWhile_append]
  split
  · rename_i hnil
    rw [List.isEmpty_iff.1 hnil, List.dropWhile_cons_of_pos hc, List.dropWhile_nil]
  · exact trimEnd_append_blank _ hc

theorem head?_trimEnd_cons (t : Text) (hc : isBlank c = false) :
    (trimEnd (c :: t)).head? = some c := by
  have hlast : [c].dropWhile isBlank = [c] := List.dropWhile_cons_of_neg (by simp [hc])
  rw [trimEnd, List.reverse_cons, List.dropWhile_append, hlast, List.head?_reverse]
  split
  · rfl
  · exact List.getLast?_concat

theorem isBlank_of_dropWhile (h : t.dropWhile isBlank = c :: rest) : isBlank c = false := by
  have hhead := List.head?_dropWhile_not isBlank t
  rw [h] at hhead
  exact hhead

/-- What is left without the blanks begins with the first character that is not blank. -/
theorem head?_trim (t : Text) : (trim t).head? = t.find? fun c => !isBlank c := by
  rw [List.find?_eq_head?_dropWhile_not]
  simp only [Bool.not_not, trim]
  cases hdrop : t.dropWhile isBlank with
  | nil => rfl
  | cons c rest =>
    rw [head?_trimEnd_cons rest (isBlank_of_dropWhile hdrop)]
    rfl

theorem filter_dropWhile_blank (t : Text) :
    (t.dropWhile isBlank).filter (fun c => !isBlank c) = t.filter fun c => !isBlank c := by
  induction t with
  | nil => rfl
  | cons c t ih =>
    cases hc : isBlank c with
    | false => rw [List.dropWhile_cons_of_neg (by simp [hc])]
    | true => rw [List.dropWhile_cons_of_pos hc, ih, List.filter_cons_of_neg (by simp [hc])]

/-- No other characters are lost with the blanks around a text. -/
theorem filter_trim (t : Text) :
    (trim t).filter (fun c => !isBlank c) = t.filter fun c => !isBlank c := by
  rw [trim, trimEnd, List.filter_reverse, filter_dropWhile_blank, ← List.filter_reverse,
    List.reverse_reverse, filter_dropWhile_blank]

/-- Nothing is left of a text without its blanks if it has no other characters. -/
theorem trim_eq_nil_iff : trim t = [] ↔ ∀ c ∈ t, isBlank c = true := by
  rw [← List.head?_eq_none_iff, head?_trim, List.find?_eq_none]
  simp

theorem mem_of_mem_trim (h : c ∈ trim t) : c ∈ t := by
  rw [trim, trimEnd, List.mem_reverse] at h
  have hfront := (List.dropWhile_sublist isBlank).subset h
  exact (List.dropWhile_sublist isBlank).subset (List.mem_reverse.1 hfront)

theorem isBlankText_iff : isBlankText t = true ↔ ∀ c ∈ t, isBlank c = true := List.all_eq_true

/-- A text that neither begins nor ends in a blank is left as it is. -/
theorem trim_eq_self (hhead : ∀ c ∈ t.head?, isBlank c = false)
    (hlast : ∀ c ∈ t.getLast?, isBlank c = false) : trim t = t := by
  have hkept : ∀ u : Text, (∀ c ∈ u.head?, isBlank c = false) → u.dropWhile isBlank = u := by
    intro u hu
    cases u with
    | nil => rfl
    | cons c u => exact List.dropWhile_cons_of_neg (by simp [hu c rfl])
  rw [trim, hkept t hhead, trimEnd, hkept t.reverse (by rwa [List.head?_reverse]),
    List.reverse_reverse]

/-! ### Words -/

/-- What stands between the blanks of a text. -/
def pieces (t : Text) : List Text := (t.splitOnP isBlank).filter (· ≠ [])

theorem pieces_append_blank (hc : isBlank c = true) (t u : Text) :
    pieces (t ++ c :: u) = pieces t ++ pieces u := by
  rw [pieces, List.splitOnP_append_cons t u hc, List.filter_append]
  rfl

theorem pieces_cons_blank (hc : isBlank c = true) (t : Text) : pieces (c :: t) = pieces t :=
  pieces_append_blank hc [] t

theorem pieces_of_word (hne : w ≠ []) (hw : ∀ c ∈ w, isBlank c = false) : pieces w = [w] := by
  rw [pieces, List.splitOnP_eq_singleton hw, List.filter_singleton]
  simp [hne]

theorem pieces_dropWhile (t : Text) : pieces (t.dropWhile isBlank) = pieces t := by
  induction t with
  | nil => rfl
  | cons c t ih =>
    cases hc : isBlank c with
    | false => rw [List.dropWhile_cons_of_neg (by simp [hc])]
    | true => rw [List.dropWhile_cons_of_pos hc, ih, pieces_cons_blank hc]

/-- A word at the front of a text is followed by a blank or ends the text. -/
theorem pieces_append_word (hne : w ≠ []) (hw : ∀ c ∈ w, isBlank c = false)
    (hu : ∀ c ∈ u.head?, isBlank c = true) : pieces (w ++ u) = w :: pieces u := by
  cases u with
  | nil =>
    rw [List.append_nil, pieces_of_word hne hw]
    rfl
  | cons c u =>
    rw [pieces_append_blank (hu c rfl), pieces_of_word hne hw, pieces_cons_blank (hu c rfl)]
    rfl

theorem words_eq_pieces (t : Text) : words t = pieces t := by
  fun_induction words t with
  | case1 t hnil =>
    rw [← pieces_dropWhile, hnil]
    rfl
  | case2 t c rest hcons ih =>
    have hword : ∀ d ∈ c :: rest.takeWhile (fun d => !isBlank d), isBlank d = false := by
      refine List.forall_mem_cons.2 ⟨isBlank_of_dropWhile hcons, fun d hd => ?_⟩
      simpa using List.mem_takeWhile_imp hd
    have hafter : ∀ d ∈ (rest.dropWhile fun d => !isBlank d).head?, isBlank d = true := by
      intro d hd
      have hhead := List.head?_dropWhile_not (fun d => !isBlank d) rest
      rw [hd] at hhead
      simpa using hhead
    rw [ih, ← pieces_append_word (List.cons_ne_nil c _) hword hafter, List.cons_append,
      List.takeWhile_append_dropWhile, ← hcons, pieces_dropWhile]

end KeypadCalc.Text
