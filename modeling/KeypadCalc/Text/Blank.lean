/-! Texts as lists of characters, the blank characters, and how blanks divide a text: `trim` takes
them off both ends and `words` cuts the text at them. -/

namespace KeypadCalc

/-- A text is the list of its characters, so positions in it count characters. -/
abbrev Text := List Char

namespace Text

/-- The code points with the Unicode property White_Space, as closed ranges. -/
def blankRanges : List (Nat × Nat) :=
  [(0x0009, 0x000D), (0x0020, 0x0020), (0x0085, 0x0085), (0x00A0, 0x00A0), (0x1680, 0x1680),
   (0x2000, 0x200A), (0x2028, 0x2029), (0x202F, 0x202F), (0x205F, 0x205F), (0x3000, 0x3000)]

/-- A character is blank if it has the Unicode property White_Space. -/
def isBlank (c : Char) : Bool :=
  blankRanges.any fun range => range.1 ≤ c.toNat && c.toNat ≤ range.2

def trimEnd (t : Text) : Text := (t.reverse.dropWhile isBlank).reverse

def trim (t : Text) : Text := trimEnd (t.dropWhile isBlank)

def isBlankText (t : Text) : Bool := t.all isBlank

/-- The maximal runs of characters that are not blank, in order. -/
def words (t : Text) : List Text :=
  match _h : t.dropWhile isBlank with
  | [] => []
  | c :: rest =>
    (c :: rest.takeWhile fun d => !isBlank d) :: words (rest.dropWhile fun d => !isBlank d)
termination_by t.length
decreasing_by
  have h1 := (List.dropWhile_sublist isBlank (l := t)).length_le
  have h2 := (List.dropWhile_sublist (fun d => !isBlank d) (l := rest)).length_le
  rw [_h] at h1
  simp only [List.length_cons] at h1
  omega

end Text

end KeypadCalc
