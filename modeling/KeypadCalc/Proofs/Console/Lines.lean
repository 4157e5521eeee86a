import KeypadCalc.Console
import KeypadCalc.Proofs.Blank
import KeypadCalc.Proofs.Utf8
import Mathlib.Data.List.DropRight

/-! How the console cuts its input into lines. Inputs are cut where texts are: the lines of a text
in UTF-8 are those of the text, each without the carriage return that may end it, which is one of
the blanks that are taken off a line anyway. -/

namespace KeypadCalc.Console

variable {input line rest : Bytes} {t u : Text}

/-! ### Cutting -/

/-- Induction over the lines of a list: the last one, or one that is cut off before the rest. -/
@[elab_as_elim]
theorem cut_induction {α : Type} (feed : α) {motive : List α → Prop}
    (last : ∀ line, feed ∉ line → motive line)
    (cut : ∀ line rest, feed ∉ line → motive rest → motive (line ++ feed :: rest))
    (l : List α) : motive l := by
  by_cases hmem : feed ∈ l
  · obtain ⟨line, rest, hl, hline⟩ := List.eq_append_cons_of_mem hmem
    rw [hl]
    exact cut line rest hline (cut_induction feed last cut rest)
  · exact last l hmem
termination_by l.length
decreasing_by
  rw [hl, List.length_append, List.length_cons]
  omega

@[simp] theorem lines_nil : lines [] = [] := by
  rw [lines]
  rfl

theorem lines_of_notMem (hinput : input ≠ []) (h : lineFeed ∉ input) : lines input = [input] := by
  have hdrop : input.dropWhile (· != lineFeed) = [] :=
    List.dropWhile_eq_nil_iff.2 fun b hb => bne_iff_ne.2 fun heq => h (heq ▸ hb)
  rw [lines]
  split
  · exact if_neg (by simpa using hinput)
  · rename_i hcons
    rw [hdrop] at hcons
    cases hcons

theorem lines_cut (h : lineFeed ∉ line) (rest : Bytes) :
    lines (line ++ lineFeed :: rest) = withoutReturn line :: lines rest := by
  have hline : ∀ b ∈ line, (b != lineFeed) = true :=
    fun b hb => bne_iff_ne.2 fun heq => h (heq ▸ hb)
  have hdrop : (line ++ lineFeed :: rest).dropWhile (· != lineFeed) = lineFeed :: rest := by
    rw [List.dropWhile_append_of_pos hline]
    rfl
  have htake : (line ++ lineFeed :: rest).takeWhile (· != lineFeed) = line := by
    rw [List.takeWhile_append_of_pos hline]
    exact List.append_nil line
  rw [lines]
  split
  · rename_i hnil
    rw [hdrop] at hnil
    cases hnil
  · rename_i hcons
    rw [hdrop] at hcons
    cases hcons
    rw [htake]

/-- Where one line ends and the next one begins, an input can be parted. -/
theorem lines_append (h : input = [] ∨ input.getLast? = some lineFeed) (rest : Bytes) :
    lines (input ++ rest) = lines input ++ lines rest := by
  induction input using cut_induction lineFeed with
  | last line hline =>
    rcases h with rfl | hlast
    · rw [lines_nil, List.nil_append, List.nil_append]
    · exact absurd (List.mem_of_getLast? hlast) hline
  | cut line others hline ih =>
    have hothers : others = [] ∨ others.getLast? = some lineFeed := by
      rcases h with hnil | hlast
      · simp at hnil
      · cases others with
        | nil => exact .inl rfl
        | cons b bs => exact .inr (by simpa [List.getLast?_append] using hlast)
    rw [List.append_assoc, List.cons_append, lines_cut hline, lines_cut hline, ih hothers,
      List.cons_append]

/-! ### Lines of texts -/

/-- A text without the carriage return that may end it. -/
def unreturned (t : Text) : Text := if t.getLast? = some '\r' then t.dropLast else t

theorem trim_unreturned (t : Text) : Text.trim (unreturned t) = Text.trim t := by
  rw [unreturned]
  split
  · rename_i hlast
    conv_rhs => rw [← List.dropLast_append_getLast? '\r' hlast]
    rw [Text.trim_append_blank _ (by decide)]
  · rfl

theorem lineFeed_mem_encode_iff : lineFeed ∈ Utf8.encode t ↔ '\n' ∈ t :=
  Utf8.mem_encode_iff (by decide)

theorem encode_cut (t u : Text) :
    Utf8.encode (t ++ '\n' :: u) = Utf8.encode t ++ lineFeed :: Utf8.encode u := by
  rw [Utf8.encode_append]
  rfl

theorem withoutReturn_encode (t : Text) :
    withoutReturn (Utf8.encode t) = Utf8.encode (unreturned t) := by
  induction t using List.reverseRecOn with
  | nil => rfl
  | append_singleton t c =>
    rw [withoutReturn, unreturned, List.getLast?_concat, List.dropLast_concat, Utf8.encode_append]
    by_cases hc : c = '\r'
    · subst hc
      have hcode : Utf8.encode ['\r'] = [13] := rfl
      rw [hcode, List.getLast?_concat, List.dropLast_concat, if_pos rfl, if_pos rfl]
    · have hlast : (Utf8.encode t ++ Utf8.encode [c]).getLast? ≠ some 13 := by
        have hcode : Utf8.encode [c] ≠ [] := by
          rw [Utf8.encode, List.flatMap_singleton]
          exact String.utf8EncodeChar_ne_nil
        rw [List.getLast?_append_of_ne_nil _ hcode]
        intro hlast
        have hmem := (Utf8.mem_encode_iff (by decide)).1 (List.mem_of_getLast? hlast)
        exact hc (List.mem_singleton.1 hmem).symm
      rw [if_neg hlast, if_neg (by simpa using hc), Utf8.encode_append]

/-- Bytes that are no text are none without a carriage return either. -/
theorem decode?_withoutReturn (h : Utf8.decode? line = none) :
    Utf8.decode? (withoutReturn line) = none := by
  rw [withoutReturn]
  split
  · rename_i hlast
    refine Option.eq_none_iff_forall_ne_some.2 fun t ht => ?_
    have hline : line = Utf8.encode (t ++ ['\r']) := by
      rw [Utf8.encode_append, ← Utf8.decode?_eq_some_iff.1 ht]
      exact (List.dropLast_append_getLast? 13 hlast).symm
    rw [hline, Utf8.decode?_encode] at h
    cases h
  · exact h

theorem lines_encode_last (hne : t ≠ []) (h : '\n' ∉ t) :
    lines (Utf8.encode t) = [Utf8.encode t] := by
  exact lines_of_notMem (Utf8.encode_eq_nil_iff.not.2 hne) (lineFeed_mem_encode_iff.not.2 h)

theorem lines_encode_cut (h : '\n' ∉ t) (u : Text) :
    lines (Utf8.encode (t ++ '\n' :: u)) =
      Utf8.encode (unreturned t) :: lines (Utf8.encode u) := by
  rw [encode_cut, lines_cut (lineFeed_mem_encode_iff.not.2 h), withoutReturn_encode]

/-- The lines of a text are those that it has between its line feeds, up to blanks at their ends. -/
theorem exists_of_mem_lines (h : line ∈ lines (Utf8.encode t)) :
    ∃ u ∈ t.splitOn '\n', ∃ v, line = Utf8.encode v ∧ Text.trim v = Text.trim u := by
  induction t using cut_induction '\n' with
  | last t ht =>
    rcases eq_or_ne t [] with rfl | hne
    · rw [Utf8.encode_nil, lines_nil] at h
      cases h
    · rw [lines_encode_last hne ht, List.mem_singleton] at h
      rw [List.splitOn_eq_singleton ht]
      exact ⟨t, List.mem_singleton_self t, t, h, rfl⟩
  | cut t rest ht ih =>
    rw [lines_encode_cut ht] at h
    rw [List.splitOn_append_cons_self_of_not_mem ht]
    rcases List.mem_cons.1 h with heq | hrest
    · exact ⟨t, List.mem_cons_self, unreturned t, heq, trim_unreturned t⟩
    · obtain ⟨u, hu, hv⟩ := ih hrest
      exact ⟨u, List.mem_cons_of_mem _ hu, hv⟩

end KeypadCalc.Console
