import KeypadCalc.Json.Numeral
import KeypadCalc.Json.Quoted

/-! The tokens of JSON texts. A text is given as its characters with `none` for bytes that begin no
character, which only a quoted string may hold. -/

namespace KeypadCalc.Json

/-- The characters of a JSON text, with gaps. -/
abbrev Source := List (Option Char)

/-- The tokens of JSON texts. The content of a string is missing if its pieces make up no text. -/
inductive Token
  | openArray
  | closeArray
  | openObject
  | closeObject
  | comma
  | colon
  | null
  | true
  | false
  | number (n : Numeral)
  | string (content : Option Text)
deriving DecidableEq, Repr

def isSpace (c : Char) : Bool := c == ' ' || c == '\t' || c == '\n' || c == '\r'

def takeDigits : Source → Text × Source
  | some c :: rest =>
    if c.isDigit then (c :: (takeDigits rest).1, (takeDigits rest).2) else ([], some c :: rest)
  | rest => ([], rest)

theorem length_takeDigits (s : Source) :
    (takeDigits s).1.length + (takeDigits s).2.length = s.length := by
  fun_induction takeDigits s with
  | case1 c rest _ ih => simp only [List.length_cons]; omega
  | case2 => simp
  | case3 => simp

/-- The digits before the point: a zero stands alone. -/
def wholeDigits (s : Source) : Text × Source :=
  match s with
  | some '0' :: rest => (['0'], rest)
  | s => takeDigits s

theorem length_wholeDigits (s : Source) :
    (wholeDigits s).1.length + (wholeDigits s).2.length = s.length := by
  unfold wholeDigits
  split
  · simp only [List.length_cons, List.length_nil]; omega
  · exact length_takeDigits s

/-- The point with the digits after it, if there is one; digits have to follow it. -/
def fraction? : Source → Option (Text × Source)
  | some '.' :: rest => if (takeDigits rest).1.isEmpty then none else some (takeDigits rest)
  | rest => some ([], rest)

/-- The digits of a power of ten, which have to be there, as a signed number. -/
def powerDigits? (negative : Bool) (s : Source) : Option (Option Int × Source) :=
  let (ds, rest) := takeDigits s
  let value : Nat := Nat.ofDigitChars 10 ds 0
  if ds.isEmpty then none else some (some (if negative then -value else value), rest)

def power? : Source → Option (Option Int × Source)
  | some 'e' :: rest | some 'E' :: rest =>
    match rest with
    | some '+' :: rest => powerDigits? Bool.false rest
    | some '-' :: rest => powerDigits? Bool.true rest
    | rest => powerDigits? Bool.false rest
  | rest => some (none, rest)

/-- A number without its sign at the front of a source. -/
def unsigned? (negative : Bool) (s : Source) : Option (Numeral × Source) := do
  let (whole, s) := wholeDigits s
  if whole.isEmpty then none
  let (fraction, s) ← fraction? s
  let (power, s) ← power? s
  return (⟨negative, whole, fraction, power⟩, s)

theorem length_fraction? {s : Source} {r : Text × Source} (h : fraction? s = some r) :
    r.2.length ≤ s.length := by
  unfold fraction? at h
  split at h
  · rename_i rest
    have := length_takeDigits rest
    split at h
    · simp at h
    · cases h
      simp only [List.length_cons]
      omega
  · cases h
    exact Nat.le_refl _

theorem length_powerDigits? {negative : Bool} {s : Source} {r : Option Int × Source}
    (h : powerDigits? negative s = some r) : r.2.length ≤ s.length := by
  unfold powerDigits? at h
  have := length_takeDigits s
  simp only at h
  split at h
  · simp at h
  · cases h
    simp only
    omega

theorem length_power? {s : Source} {r : Option Int × Source} (h : power? s = some r) :
    r.2.length ≤ s.length := by
  have hcons : ∀ (a : Option Char) {u : Source}, r.2.length ≤ u.length →
      r.2.length ≤ (a :: u).length := fun a u hu => Nat.le_succ_of_le hu
  unfold power? at h
  split at h
  · split at h
    · exact hcons _ (hcons _ (length_powerDigits? h))
    · exact hcons _ (hcons _ (length_powerDigits? h))
    · exact hcons _ (length_powerDigits? h)
  · split at h
    · exact hcons _ (hcons _ (length_powerDigits? h))
    · exact hcons _ (hcons _ (length_powerDigits? h))
    · exact hcons _ (length_powerDigits? h)
  · cases h
    exact Nat.le_refl _

theorem length_unsigned? {negative : Bool} {s : Source} {r : Numeral × Source}
    (h : unsigned? negative s = some r) : r.2.length < s.length := by
  unfold unsigned? at h
  have hw := length_wholeDigits s
  simp only at h
  split at h
  · simp at h
  · rename_i hne
    have hpos : 0 < (wholeDigits s).1.length := by
      cases hds : (wholeDigits s).1 with
      | nil => simp [hds] at hne
      | cons => simp
    cases hf : fraction? (wholeDigits s).2 with
    | none => simp [hf] at h
    | some f =>
      cases hp : power? f.2 with
      | none => simp [hf, hp] at h
      | some p =>
        have h1 := length_fraction? hf
        have h2 := length_power? hp
        simp [hf, hp] at h
        rw [← h]
        simp only
        omega

theorem length_pieces? {s : Source} {r : List Piece × Source} (h : pieces? s = some r) :
    r.2.length < s.length := by
  fun_induction pieces? s generalizing r with
  | case1 => cases h; simp
  | case2 a b c d rest ih =>
    simp only [Option.bind_eq_bind, Option.bind_eq_some_iff, Option.pure_def] at h
    obtain ⟨n, -, q, hq, hr⟩ := h
    cases hr
    have := ih hq
    simp only [List.length_cons]
    omega
  | case3 e rest _ ih =>
    simp only [Option.bind_eq_bind, Option.bind_eq_some_iff, Option.pure_def] at h
    obtain ⟨n, -, q, hq, hr⟩ := h
    cases hr
    have := ih hq
    simp only [List.length_cons]
    omega
  | case4 => simp at h
  | case5 c rest _ _ _ _ ih =>
    obtain ⟨q, hq, rfl⟩ := Option.map_eq_some_iff.1 h
    have := ih hq
    simp only [List.length_cons]
    omega
  | case6 rest ih =>
    obtain ⟨q, hq, rfl⟩ := Option.map_eq_some_iff.1 h
    have := ih hq
    simp only [List.length_cons]
    omega
  | case7 => simp at h

/-- The token at the front of a source that starts with the character `c` and goes on with `rest`,
and what follows it. -/
def first? (c : Char) (rest : Source) : Option (Token × Source) :=
  match c, rest with
  | '[', rest => some (.openArray, rest)
  | ']', rest => some (.closeArray, rest)
  | '{', rest => some (.openObject, rest)
  | '}', rest => some (.closeObject, rest)
  | ',', rest => some (.comma, rest)
  | ':', rest => some (.colon, rest)
  | 'n', some 'u' :: some 'l' :: some 'l' :: rest => some (.null, rest)
  | 't', some 'r' :: some 'u' :: some 'e' :: rest => some (.true, rest)
  | 'f', some 'a' :: some 'l' :: some 's' :: some 'e' :: rest => some (.false, rest)
  | '"', rest => (pieces? rest).map fun r => (.string (content? r.1), r.2)
  | '-', rest => (unsigned? Bool.true rest).map fun r => (.number r.1, r.2)
  | c, rest => (unsigned? Bool.false (some c :: rest)).map fun r => (.number r.1, r.2)

theorem length_first? {c : Char} {rest : Source} {r : Token × Source}
    (h : first? c rest = some r) : r.2.length ≤ rest.length := by
  unfold first? at h
  split at h
  all_goals first
    | (cases h; simp only [List.length_cons]; omega)
    | (obtain ⟨q, hq, rfl⟩ := Option.map_eq_some_iff.1 h
       first
         | exact Nat.le_of_lt (length_pieces? hq)
         | exact Nat.le_of_lt (length_unsigned? hq)
         | exact Nat.le_of_lt_succ (length_unsigned? hq))

/-- The tokens of a source, unless something in it is no token. -/
def tokens? : Source → Option (List Token)
  | [] => some []
  | none :: _ => none
  | some c :: rest =>
    if isSpace c then tokens? rest
    else match h : first? c rest with
      | none => none
      | some (token, after) =>
        have := length_first? h
        (tokens? after).map (token :: ·)
termination_by s => s.length
decreasing_by
  · exact Nat.lt_succ_self _
  · exact Nat.lt_succ_of_le this

end KeypadCalc.Json
