import KeypadCalc.Expr.Sanitizer
import Mathlib.Data.List.TakeWhile

/-! How a text is cut at its percentages: at each percent sign that follows a digit, with the
longest literal before it. There is one way to do so, and the sanitizer writes each of the literals
that are found as a division, leaving what stands between them as it is. -/

namespace KeypadCalc.Sanitizer

/-- The literals that a percent sign can follow: digits, or digits with a point among them. -/
inductive IsLiteral : Text → Prop
  | whole {ds : Text} : ds ≠ [] → (∀ c ∈ ds, c.isDigit) → IsLiteral ds
  | point {ds fs : Text} : ds ≠ [] → fs ≠ [] → (∀ c ∈ ds, c.isDigit) → (∀ c ∈ fs, c.isDigit) →
      IsLiteral (ds ++ '.' :: fs)

/-- The literal `u` at the end of the text `t ++ u` is not the end of a longer one. -/
def IsLongestEnd (t u : Text) : Prop :=
  ∀ front more, t = front ++ more → IsLiteral (more ++ u) → more = []

/-- No percent sign in a text follows a digit. -/
def NoPercentages (t : Text) : Prop :=
  ∀ front c rest, t = front ++ c :: '%' :: rest → ¬c.isDigit

/-- A part of a text: a literal that a percent sign follows, or what stands between such. -/
inductive Part
  | between (t : Text)
  | literal (u : Text)

/-- A text is cut at its percentages. -/
inductive Divides : Text → List Part → Prop
  | last {t : Text} : NoPercentages t → Divides t [.between t]
  | percentage {t u rest : Text} {parts : List Part} :
      NoPercentages t → IsLiteral u → IsLongestEnd t u → Divides rest parts →
        Divides (t ++ (u ++ '%' :: rest)) (.between t :: .literal u :: parts)

/-- What is written for a part: a literal becomes a division by a hundred in parentheses. -/
def Part.written : Part → Text
  | between t => t
  | literal u => '(' :: u ++ ['/', '1', '0', '0', ')']

variable {a b t u u' p p' rest rest' : Text} {c : Char} {parts : List Part}

/-! ### Literals -/

theorem IsLiteral.ne_nil (h : IsLiteral u) : u ≠ [] := by
  cases h with
  | whole hne => exact hne
  | point => simp

theorem IsLiteral.forall_mem (h : IsLiteral u) : ∀ c ∈ u, c.isDigit = true ∨ c = '.' := by
  intro c hc
  cases h with
  | whole _ hd => exact .inl (hd c hc)
  | point _ _ hd hf =>
    rcases List.mem_append.1 hc with hc | hc
    · exact .inl (hd c hc)
    · exact (List.mem_cons.1 hc).elim .inr fun hc => .inl (hf c hc)

theorem IsLiteral.percent_notMem (h : IsLiteral u) : '%' ∉ u := fun hmem =>
  absurd (h.forall_mem _ hmem) (by decide)

theorem IsLiteral.minus_notMem (h : IsLiteral u) : '-' ∉ u := fun hmem =>
  absurd (h.forall_mem _ hmem) (by decide)

/-- A literal ends in a digit. -/
theorem IsLiteral.exists_concat (h : IsLiteral u) : ∃ init c, u = init ++ [c] ∧ c.isDigit := by
  cases h with
  | whole hne hd =>
    obtain ⟨init, c, rfl⟩ := (List.eq_nil_or_concat u).resolve_left hne
    exact ⟨init, c, List.concat_eq_append, hd c (by simp)⟩
  | @point ds fs _ hne _ hf =>
    obtain ⟨init, c, rfl⟩ := (List.eq_nil_or_concat fs).resolve_left hne
    exact ⟨ds ++ '.' :: init, c, by simp, hf c (by simp)⟩

/-- A literal begins with a digit. -/
theorem IsLiteral.exists_cons (h : IsLiteral u) : ∃ c t, u = c :: t ∧ c.isDigit := by
  cases h with
  | whole hne hd =>
    obtain ⟨c, t, rfl⟩ := List.exists_cons_of_ne_nil hne
    exact ⟨c, t, rfl, hd c (by simp)⟩
  | point hne _ hd _ =>
    obtain ⟨c, t, rfl⟩ := List.exists_cons_of_ne_nil hne
    exact ⟨c, _, rfl, hd c (by simp)⟩

theorem isLiteral_singleton (h : c.isDigit) : IsLiteral [c] :=
  .whole (by simp) (List.forall_mem_singleton.2 h)

theorem IsLiteral.cons (hc : c.isDigit) (h : IsLiteral u) : IsLiteral (c :: u) := by
  cases h with
  | whole _ hd => exact .whole (by simp) (List.forall_mem_cons.2 ⟨hc, hd⟩)
  | @point ds fs _ hne hd hf =>
    exact .point (List.cons_ne_nil c ds) hne (List.forall_mem_cons.2 ⟨hc, hd⟩) hf

/-! ### The longest literal at the end -/

/-- A text that ends in a digit ends in a longest literal. -/
theorem exists_isLongestEnd (t : Text) (hc : c.isDigit) :
    ∃ a u, t ++ [c] = a ++ u ∧ IsLiteral u ∧ IsLongestEnd a u := by
  induction t with
  | nil =>
    refine ⟨[], [c], rfl, isLiteral_singleton hc, fun front more h _ => ?_⟩
    exact (List.append_eq_nil_iff.1 h.symm).2
  | cons d t ih =>
    obtain ⟨a, u, ht, hu, hlongest⟩ := ih
    by_cases hall : IsLiteral (d :: (t ++ [c]))
    · refine ⟨[], d :: (t ++ [c]), rfl, hall, fun front more h _ => ?_⟩
      exact (List.append_eq_nil_iff.1 h.symm).2
    · refine ⟨d :: a, u, by rw [List.cons_append, ht, List.cons_append], hu, ?_⟩
      intro front more hmore hliteral
      cases front with
      | nil =>
        rw [List.nil_append] at hmore
        subst hmore
        exact absurd (by rwa [ht]) hall
      | cons e front => exact hlongest front more (List.cons_eq_cons.1 hmore).2 hliteral

theorem IsLongestEnd.not_isDigit (hu : IsLiteral u) (h : IsLongestEnd (a ++ [c]) u) :
    ¬c.isDigit := by
  intro hc
  cases h a [c] rfl (hu.cons hc)

/-- A point before a longest literal without one follows no digit. -/
theorem IsLongestEnd.not_isDigit_of_point (hne : u ≠ []) (hd : ∀ c ∈ u, c.isDigit)
    (h : IsLongestEnd (a ++ ['.']) u) : ∀ c ∈ a.getLast?, ¬c.isDigit := by
  intro c hc hdigit
  obtain ⟨front, rfl⟩ := List.getLast?_eq_some_iff.1 hc
  have hpoint : IsLiteral ([c] ++ '.' :: u) :=
    .point (by simp) hne (List.forall_mem_singleton.2 hdigit) hd
  cases h front [c, '.'] (by simp) hpoint

/-- Two texts without percent signs that are followed by one are the same if what comes of them
is. -/
theorem eq_of_append_percent (hu : '%' ∉ u) (hu' : '%' ∉ u')
    (h : u ++ '%' :: rest = u' ++ '%' :: rest') : u = u' ∧ rest = rest' := by
  have hfront : ∀ w, '%' ∉ w → ∀ r, (w ++ '%' :: r).takeWhile (· ≠ '%') = w := by
    intro w hw r
    have hpos : ∀ c ∈ w, decide (c ≠ '%') = true := fun c hc =>
      decide_eq_true fun heq => hw (by rwa [heq] at hc)
    rw [List.takeWhile_append_of_pos hpos, List.takeWhile_cons_of_neg (by simp), List.append_nil]
  have heq := congrArg (List.takeWhile (· ≠ '%')) h
  rw [hfront u hu, hfront u' hu'] at heq
  subst heq
  exact ⟨rfl, by simpa using h⟩

/-- The literal that is found before a percent sign is the one that is there. -/
theorem percentLiteral?_eq_some_iff :
    percentLiteral? t = some (u, rest) ↔ IsLiteral u ∧ t = u ++ '%' :: rest := by
  constructor
  · intro h
    have hsplit := List.takeWhile_append_dropWhile (p := Char.isDigit) (l := t)
    have hd : ∀ w : Text, ∀ c ∈ w.takeWhile Char.isDigit, c.isDigit := fun w c hc =>
      List.mem_takeWhile_imp hc
    unfold percentLiteral? at h
    simp only at h
    split at h
    · cases h
    · rename_i hne
      rw [List.isEmpty_iff] at hne
      split at h
      · rename_i after heq
        cases h
        rw [heq] at hsplit
        exact ⟨.whole hne (hd t), hsplit.symm⟩
      · rename_i mid heq
        have hsplit' := List.takeWhile_append_dropWhile (p := Char.isDigit) (l := mid)
        split at h
        · rename_i after heq'
          split at h
          · cases h
          · rename_i hne'
            rw [List.isEmpty_iff] at hne'
            cases h
            rw [heq'] at hsplit'
            refine ⟨.point hne hne' (hd t) (hd mid), ?_⟩
            rw [List.append_assoc, List.cons_append, hsplit', ← heq, hsplit]
        · cases h
      · cases h
  · rintro ⟨hu, rfl⟩
    have hdigits : ∀ ds : Text, (∀ c ∈ ds, c.isDigit) → ∀ w,
        (ds ++ w).takeWhile Char.isDigit = ds ++ w.takeWhile Char.isDigit ∧
          (ds ++ w).dropWhile Char.isDigit = w.dropWhile Char.isDigit := fun ds hds w =>
      ⟨List.takeWhile_append_of_pos hds, List.dropWhile_append_of_pos hds⟩
    have hpercent : Char.isDigit '%' = false := by decide
    have hpoint : Char.isDigit '.' = false := by decide
    cases hu with
    | whole hne hd =>
      simp [percentLiteral?, hdigits u hd, hpercent, hne]
    | @point ds fs hne hne' hd hf =>
      simp [percentLiteral?, hdigits ds hd, hdigits fs hf, hpercent, hpoint, hne, hne']

theorem percentLiteral?_eq_none_iff :
    percentLiteral? t = none ↔ ∀ u rest, IsLiteral u → t ≠ u ++ '%' :: rest := by
  rw [← Option.not_isSome_iff_eq_none, Option.isSome_iff_exists]
  simp only [Prod.exists, percentLiteral?_eq_some_iff, not_exists, not_and, ne_eq]

/-! ### Writing percentages -/

theorem expandPercents_percentage (hu : IsLiteral u) (rest : Text) :
    expandPercents (u ++ '%' :: rest) = (Part.literal u).written ++ expandPercents rest := by
  have hfound : percentLiteral? (u ++ '%' :: rest) = some (u, rest) :=
    percentLiteral?_eq_some_iff.2 ⟨hu, rfl⟩
  generalize ht : u ++ '%' :: rest = t at hfound
  cases t with
  | nil => simp at ht
  | cons c t =>
    rw [expandPercents]
    split
    · rename_i heq
      rw [hfound] at heq
      cases heq
      rfl
    · rename_i heq
      rw [hfound] at heq
      cases heq

theorem expandPercents_cons (h : percentLiteral? (c :: t) = none) :
    expandPercents (c :: t) = c :: expandPercents t := by
  rw [expandPercents]
  split
  · rename_i heq
    rw [h] at heq
    cases heq
  · rfl

/-- A percentage that begins in the text `a` does not reach into the text `b` after it. -/
def Apart (a b : Text) : Prop :=
  ∀ front more u rest, a = front ++ more → more ≠ [] → IsLiteral u →
    more ++ b = u ++ '%' :: rest → ∃ rest', more = u ++ '%' :: rest'

/-- Texts that no percentage joins are written by themselves. -/
theorem expandPercents_append (h : Apart a b) :
    expandPercents (a ++ b) = expandPercents a ++ expandPercents b := by
  fun_induction expandPercents a with
  | case1 => rfl
  | case2 c t literal after hfound _ ih =>
    obtain ⟨hu, heq⟩ := percentLiteral?_eq_some_iff.1 hfound
    have hafter : Apart after b := fun front more u rest hmore =>
      h (literal ++ '%' :: front) more u rest (by rw [heq, hmore]; simp)
    rw [heq, List.append_assoc, List.cons_append, expandPercents_percentage hu, ih hafter]
    simp [Part.written]
  | case3 c t hnone ih =>
    have ht : Apart t b := fun front more u rest hmore =>
      h (c :: front) more u rest (by rw [hmore]; rfl)
    have hnone' : percentLiteral? (c :: (t ++ b)) = none := by
      rw [percentLiteral?_eq_none_iff]
      intro u rest hu heq
      obtain ⟨rest', hrest'⟩ := h [] (c :: t) u rest rfl (by simp) hu heq
      exact percentLiteral?_eq_none_iff.1 hnone u rest' hu hrest'
    rw [List.cons_append, expandPercents_cons hnone', ih ht]
    rfl

/-- No percentage reaches into a text without percent signs. -/
theorem apart_of_notMem (h : '%' ∉ b) : Apart a b := by
  intro front more u rest _ _ _ heq
  rcases List.append_eq_append_iff.1 heq with ⟨mid, rfl, rfl⟩ | ⟨mid, rfl, hmid⟩
  · simp at h
  · cases mid with
    | nil =>
      obtain rfl : b = '%' :: rest := hmid.symm
      simp at h
    | cons d mid =>
      obtain ⟨rfl, -⟩ := List.cons_eq_cons.1 hmid
      exact ⟨mid, rfl⟩

/-- No percentage reaches beyond the longest literal of the one after it. -/
theorem IsLongestEnd.apart (hu : IsLiteral u) (h : IsLongestEnd a u) :
    Apart a (u ++ '%' :: rest) := by
  intro front more u' rest' ha hne hu' heq
  rcases List.append_eq_append_iff.1 heq with ⟨mid, rfl, hmid⟩ | ⟨mid, rfl, hmid⟩
  · have hnotMem : '%' ∉ mid := fun hmem => hu'.percent_notMem (by simp [hmem])
    obtain ⟨rfl, -⟩ := eq_of_append_percent hu.percent_notMem hnotMem hmid
    exact absurd (h front more ha hu') hne
  · cases mid with
    | nil =>
      obtain ⟨c, t, rfl⟩ := List.exists_cons_of_ne_nil hu.ne_nil
      obtain ⟨rfl, -⟩ := List.cons_eq_cons.1 hmid
      exact absurd (by simp) hu.percent_notMem
    | cons d mid =>
      obtain ⟨rfl, -⟩ := List.cons_eq_cons.1 hmid
      exact ⟨mid, rfl⟩

theorem noPercentages_nil : NoPercentages [] := fun front _ _ h => by
  cases front <;> cases h

theorem noPercentages_of_notMem (h : '%' ∉ t) : NoPercentages t := by
  rintro front c rest rfl
  simp at h

theorem NoPercentages.of_cons (h : NoPercentages (c :: t)) : NoPercentages t :=
  fun front d rest ht => h (c :: front) d rest (by rw [ht]; rfl)

theorem NoPercentages.append (ha : NoPercentages a) (hb : NoPercentages b)
    (h : ∀ c ∈ a.getLast?, c.isDigit → b.head? ≠ some '%') : NoPercentages (a ++ b) := by
  intro front c rest heq hc
  rcases List.append_eq_append_iff.1 heq with ⟨mid, rfl, rfl⟩ | ⟨mid, rfl, hmid⟩
  · exact hb mid c rest rfl hc
  · match mid, hmid with
    | [], hmid => exact hb [] c rest hmid.symm hc
    | [d], hmid =>
      obtain ⟨rfl, rfl⟩ := List.cons_eq_cons.1 hmid
      exact h c (by simp) hc rfl
    | d :: e :: mid, hmid =>
      simp only [List.cons_append, List.cons.injEq] at hmid
      obtain ⟨rfl, rfl, -⟩ := hmid
      exact ha front c mid rfl hc

theorem NoPercentages.percentLiteral?_eq_none (h : NoPercentages t) : percentLiteral? t = none := by
  rw [percentLiteral?_eq_none_iff]
  intro u rest hu heq
  obtain ⟨init, c, rfl, hc⟩ := hu.exists_concat
  exact h init c rest (by simpa using heq) hc

theorem NoPercentages.expandPercents_eq (h : NoPercentages t) : expandPercents t = t := by
  induction t with
  | nil => rw [expandPercents]
  | cons c t ih => rw [expandPercents_cons h.percentLiteral?_eq_none, ih h.of_cons]

/-- A text without percent signs is written as it stands after any other. -/
theorem expandPercents_append_of_notMem (h : '%' ∉ b) :
    expandPercents (a ++ b) = expandPercents a ++ b := by
  rw [expandPercents_append (apart_of_notMem h), (noPercentages_of_notMem h).expandPercents_eq]

/-- The sanitizer writes the parts of a text one after the other. -/
theorem Divides.expandPercents_eq (h : Divides t parts) :
    expandPercents t = (parts.map Part.written).flatten := by
  induction h with
  | last ht => simpa [Part.written] using ht.expandPercents_eq
  | percentage ht hu hlongest _ ih =>
    rw [expandPercents_append (hlongest.apart hu), ht.expandPercents_eq,
      expandPercents_percentage hu, ih]
    simp [Part.written]

theorem eq_nil_of_expandPercents (h : expandPercents t = []) : t = [] := by
  cases t with
  | nil => rfl
  | cons c t =>
    rw [expandPercents] at h
    split at h <;> cases h

/-- Writing percentages leaves the last character of a text or puts a parenthesis in its place. -/
theorem mem_getLast?_expandPercents (t : Text) :
    ∀ d ∈ (expandPercents t).getLast?, d ∈ t.getLast? ∨ d = ')' := by
  fun_induction expandPercents t with
  | case1 => simp
  | case2 c t literal after hfound _ ih =>
    intro d hd
    rw [(percentLiteral?_eq_some_iff.1 hfound).2]
    rw [Option.mem_def, List.getLast?_append, Option.or_eq_some_iff] at hd
    rcases hd with hd | ⟨-, hd⟩
    · refine (ih d hd).imp_left fun hafter => ?_
      obtain ⟨front, rfl⟩ := List.getLast?_eq_some_iff.1 hafter
      exact List.getLast?_eq_some_iff.2 ⟨literal ++ '%' :: front, by simp⟩
    · rw [List.getLast?_append] at hd
      exact .inr (Option.some.inj hd).symm
  | case3 c t hnone ih =>
    intro d hd
    rw [Option.mem_def, List.getLast?_cons, Option.some_inj] at hd
    cases hlast : (expandPercents t).getLast? with
    | none =>
      rw [hlast] at hd
      rw [eq_nil_of_expandPercents (List.getLast?_eq_none_iff.1 hlast)]
      exact .inl (congrArg some hd)
    | some e =>
      rw [hlast] at hd
      obtain rfl : e = d := hd
      refine (ih e hlast).imp_left fun ht => ?_
      obtain ⟨front, rfl⟩ := List.getLast?_eq_some_iff.1 ht
      exact List.getLast?_eq_some_iff.2 ⟨c :: front, rfl⟩

/-! ### There is one way to cut a text -/

theorem NoPercentages.cons (h : NoPercentages t) (hc : percentLiteral? (c :: (t ++ u)) = none) :
    NoPercentages (c :: t) := by
  intro front d rest ht hd
  cases front with
  | nil =>
    obtain ⟨rfl, rfl⟩ := List.cons_eq_cons.1 ht
    exact percentLiteral?_eq_none_iff.1 hc [c] (rest ++ u) (isLiteral_singleton hd) rfl
  | cons e front =>
    obtain ⟨rfl, rfl⟩ := List.cons_eq_cons.1 ht
    exact h front d rest rfl hd

theorem exists_divides (t : Text) : ∃ parts, Divides t parts := by
  fun_induction expandPercents t with
  | case1 => exact ⟨_, .last noPercentages_nil⟩
  | case2 c t literal after hfound _ ih =>
    obtain ⟨hu, heq⟩ := percentLiteral?_eq_some_iff.1 hfound
    obtain ⟨parts, hparts⟩ := ih
    rw [heq, ← List.nil_append (literal ++ _)]
    refine ⟨_, .percentage noPercentages_nil hu ?_ hparts⟩
    exact fun front more h _ => (List.append_eq_nil_iff.1 h.symm).2
  | case3 c t hnone ih =>
    obtain ⟨parts, hparts⟩ := ih
    cases hparts with
    | last ht =>
      exact ⟨_, .last (ht.cons (u := []) (by simpa using hnone))⟩
    | @percentage t u rest parts ht hu hlongest hrest =>
      refine ⟨_, .percentage (t := c :: t) (ht.cons hnone) hu ?_ hrest⟩
      intro front more hmore hliteral
      cases front with
      | nil =>
        rw [List.nil_append] at hmore
        subst hmore
        exact absurd (by simp) (percentLiteral?_eq_none_iff.1 hnone _ rest hliteral)
      | cons d front => exact hlongest front more (List.cons_eq_cons.1 hmore).2 hliteral

theorem Divides.noPercentages (h : Divides t parts) :
    NoPercentages (parts.map Part.written).flatten := by
  induction h with
  | last ht => simpa [Part.written] using ht
  | @percentage t u _ _ ht hu _ _ ih =>
    have hwritten : NoPercentages (Part.literal u).written := by
      refine noPercentages_of_notMem ?_
      simp [Part.written, hu.percent_notMem]
    have hlast : (Part.literal u).written.getLast? = some ')' := by
      rw [Part.written, List.getLast?_append]
      rfl
    refine ht.append (hwritten.append ih fun c hc hdigit => ?_) fun _ _ _ => by simp [Part.written]
    rw [hlast] at hc
    obtain rfl := Option.some.inj hc
    exact absurd hdigit (by decide)

/-- The sanitizer leaves no percent sign right after a digit. -/
theorem noPercentages_expandPercents (t : Text) : NoPercentages (expandPercents t) := by
  obtain ⟨parts, hparts⟩ := exists_divides t
  rw [hparts.expandPercents_eq]
  exact hparts.noPercentages

/-- A percentage is not hidden in a text without percentages and a literal after it. -/
theorem NoPercentages.append_ne (h : NoPercentages p) (hu : '%' ∉ u) (hu' : IsLiteral u') :
    p ++ u ≠ p' ++ u' ++ '%' :: rest := by
  intro heq
  obtain ⟨init, c, rfl, hc⟩ := hu'.exists_concat
  rcases List.append_eq_append_iff.1 heq with ⟨mid, -, rfl⟩ | ⟨mid, rfl, hmid⟩
  · simp at hu
  · cases mid with
    | nil =>
      obtain rfl : u = '%' :: rest := hmid.symm
      simp at hu
    | cons d mid =>
      obtain ⟨rfl, -⟩ := List.cons_eq_cons.1 hmid
      exact h (p' ++ init) c mid (by simp) hc

/-- The first percentage of a text and what stands before it are determined. -/
theorem eq_of_percentage (hp : NoPercentages p) (hu : IsLiteral u) (hlongest : IsLongestEnd p u)
    (hp' : NoPercentages p') (hu' : IsLiteral u') (hlongest' : IsLongestEnd p' u')
    (h : p ++ (u ++ '%' :: rest) = p' ++ (u' ++ '%' :: rest')) :
    p = p' ∧ u = u' ∧ rest = rest' := by
  rw [← List.append_assoc, ← List.append_assoc] at h
  have hfront : p ++ u = p' ++ u' ∧ '%' :: rest = '%' :: rest' := by
    rcases List.append_eq_append_iff.1 h with ⟨mid, hmid, hrest⟩ | ⟨mid, hmid, hrest⟩
    · cases mid with
      | nil => exact ⟨by simpa using hmid.symm, hrest⟩
      | cons d mid =>
        obtain ⟨rfl, -⟩ := List.cons_eq_cons.1 hrest
        exact absurd hmid (hp'.append_ne hu'.percent_notMem hu)
    · cases mid with
      | nil => exact ⟨by simpa using hmid, hrest.symm⟩
      | cons d mid =>
        obtain ⟨rfl, -⟩ := List.cons_eq_cons.1 hrest
        exact absurd hmid (hp.append_ne hu.percent_notMem hu')
  obtain ⟨hfront, hrest⟩ := hfront
  obtain ⟨-, rfl⟩ := List.cons_eq_cons.1 hrest
  rcases List.append_eq_append_iff.1 hfront with ⟨mid, rfl, rfl⟩ | ⟨mid, rfl, rfl⟩
  · obtain rfl := hlongest' p mid rfl hu
    simp
  · obtain rfl := hlongest p' mid rfl hu'
    simp

theorem Divides.unique {parts' : List Part} (h : Divides t parts) (h' : Divides t parts') :
    parts = parts' := by
  induction h generalizing parts' with
  | @last t ht =>
    generalize hs : t = s at h'
    cases h' with
    | last => rfl
    | @percentage p u rest parts _ hu =>
      rw [← List.append_assoc] at hs
      exact absurd (by simpa using hs) (ht.append_ne (u := []) (by simp) hu)
  | @percentage t u rest parts ht hu hlongest _ ih =>
    generalize hs : t ++ (u ++ '%' :: rest) = s at h'
    cases h' with
    | last hp =>
      rw [← List.append_assoc] at hs
      exact absurd (by simpa using hs.symm) (hp.append_ne (u := []) (by simp) hu)
    | percentage hp hu' hlongest' hrest =>
      obtain ⟨rfl, rfl, rfl⟩ := eq_of_percentage ht hu hlongest hp hu' hlongest' hs
      rw [ih hrest]

/-! ### Texts that are admitted -/

theorem isAllowed_of_isDigit (h : c.isDigit = true) : isAllowed c = true := by
  simp [isAllowed, h]

theorem IsLiteral.isAllowed (h : IsLiteral u) : ∀ c ∈ u, isAllowed c = true := by
  intro c hc
  rcases h.forall_mem c hc with hd | rfl
  · exact isAllowed_of_isDigit hd
  · rfl

theorem operatorOf_of_isAllowed (h : isAllowed c = true) : operatorOf c = c := by
  unfold operatorOf
  split
  all_goals first
    | rfl
    | exact absurd h (by decide)

theorem canonical_eq_self (h : ∀ c ∈ t, isAllowed c = true) : canonical t = t := by
  have hfilter : t.filter (· ≠ ',') = t := by
    refine List.filter_eq_self.2 fun c hc => decide_eq_true ?_
    rintro rfl
    exact absurd (h _ hc) (by decide)
  rw [canonical, hfilter, List.map_congr_left fun c hc => operatorOf_of_isAllowed (h c hc),
    List.map_id']

/-- The first character of a text that has no place in a canonical one. -/
def foreign? (t : Text) : Option Char := (canonical t).find? fun c => !isAllowed c

theorem foreign?_append (a b : Text) : foreign? (a ++ b) = (foreign? a).or (foreign? b) := by
  simp [foreign?, canonical, List.find?_append]

theorem foreign?_eq_none (h : ∀ c ∈ t, isAllowed c = true) : foreign? t = none := by
  rw [foreign?, canonical_eq_self h, List.find?_eq_none]
  intro c hc
  simp [h c hc]

theorem sanitize_eq_ok (h : ∀ c ∈ t, isAllowed c = true) : sanitize t = .ok (expandPercents t) := by
  have hnone := foreign?_eq_none h
  rw [foreign?] at hnone
  rw [sanitize, hnone, canonical_eq_self h]

theorem sanitize_eq_error_iff {e : CalcError} :
    sanitize t = .error e ↔ ∃ c, foreign? t = some c ∧ e = .invalidCharacter c := by
  unfold sanitize foreign?
  cases (canonical t).find? fun c => !isAllowed c with
  | none => simp
  | some c => simp [eq_comm]

theorem sanitize_eq_ok_iff {s : Text} :
    sanitize t = .ok s ↔ foreign? t = none ∧ expandPercents (canonical t) = s := by
  unfold sanitize foreign?
  cases (canonical t).find? fun c => !isAllowed c <;> simp

theorem exists_sanitize_eq_ok_iff : (∃ s, sanitize t = .ok s) ↔ foreign? t = none := by
  simp [sanitize_eq_ok_iff]

end KeypadCalc.Sanitizer
