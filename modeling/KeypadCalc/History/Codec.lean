import KeypadCalc.Decimal.Style
import KeypadCalc.History.Entry
import KeypadCalc.Json.Skip
import KeypadCalc.Text.Utf8

/-! The history as JSON text: an array of objects with the fields `expr`, `result` and `time`. It
is written compactly for storage and over several lines for reading. What is read may have its
fields in any order and further fields among them, or be an array of the three values. -/

namespace KeypadCalc.Entry

open Decimal (Style)

/-! ### Writing -/

/-- Written out from 1e-5 up to below 1e16, with a power of ten elsewhere, and always told apart
from a whole number. -/
def numberStyle : Style where
  tie := .even
  positional := fun power => -5 ≤ power && power ≤ 15
  keepsPoint := true
  signsZero := true
  nan := ['n', 'u', 'l', 'l']
  infinity := ['n', 'u', 'l', 'l']
  negativeInfinity := ['n', 'u', 'l', 'l']

/-- The white space between tokens. -/
structure Layout where
  /-- What stands before an item inside the given number of brackets, and before the bracket that
  closes them. -/
  newline : Nat → Text
  /-- What stands after a colon. -/
  afterColon : Text

def compact : Layout := ⟨fun _ => [], []⟩

/-- A line for each item, indented by two blanks for each bracket. -/
def pretty : Layout := ⟨fun depth => '\n' :: List.replicate (2 * depth) ' ', [' ']⟩

def writeField (layout : Layout) (name value : Text) : Text :=
  layout.newline 2 ++ Json.quote name ++ ':' :: layout.afterColon ++ value

def expressionName : Text := ['e', 'x', 'p', 'r']
def resultName : Text := ['r', 'e', 's', 'u', 'l', 't']
def timeName : Text := ['t', 'i', 'm', 'e']

def write (layout : Layout) (e : Entry) : Text :=
  '{' :: writeField layout expressionName (Json.quote e.expression)
    ++ ',' :: writeField layout resultName (numberStyle.text e.result)
    ++ ',' :: writeField layout timeName (Decimal.integerText e.time.toInt)
    ++ layout.newline 1 ++ ['}']

/-- The entries after the first one. -/
def writeMore (layout : Layout) (es : List Entry) : Text :=
  es.flatMap fun e => ',' :: layout.newline 1 ++ write layout e

def writeAll (layout : Layout) : List Entry → Text
  | [] => ['[', ']']
  | e :: es =>
    '[' :: layout.newline 1 ++ write layout e ++ writeMore layout es ++ layout.newline 0 ++ [']']

def encodeAll (es : List Entry) : Bytes := Utf8.encode (writeAll compact es)

/-! ### Reading -/

structure Found where
  expression : Option Text := none
  result : Option Float := none
  time : Option Int64 := none

/-- The entry that the fields make up once all three are found. -/
def Found.entry? (found : Found) : Option Entry := do
  return ⟨← found.expression, ← found.result, ← found.time⟩

def textOf? : Json.Token → Option Text
  | .string content => content
  | _ => none

def floatOf? : Json.Token → Option Float
  | .number n => n.toFloat?
  | _ => none

/-- The time stamp that a token stands for: a whole number of 64 bits. -/
def timeOf? : Json.Token → Option Int64
  | .number n => do
    let i ← n.toInt?
    if Int64.minValue.toInt ≤ i ∧ i ≤ Int64.maxValue.toInt then some (.ofInt i) else none
  | _ => none

/-- Adds the field with a given name, whose value comes first, and gives the tokens after that
value. A field may be found only once; fields of other names are passed over. -/
def Found.read? (found : Found) (name : Text) (tokens : List Json.Token) :
    Option (Found × List Json.Token) :=
  if name = expressionName then
    match found.expression, tokens with
    | none, token :: rest =>
      (textOf? token).map fun v => ({ found with expression := some v }, rest)
    | _, _ => none
  else if name = resultName then
    match found.result, tokens with
    | none, token :: rest => (floatOf? token).map fun v => ({ found with result := some v }, rest)
    | _, _ => none
  else if name = timeName then
    match found.time, tokens with
    | none, token :: rest => (timeOf? token).map fun v => ({ found with time := some v }, rest)
    | _, _ => none
  else (Json.skip? tokens).map fun rest => (found, rest)

theorem Found.length_read? {found : Found} {name : Text} {tokens : List Json.Token}
    {r : Found × List Json.Token} (h : found.read? name tokens = some r) :
    r.2.length < tokens.length := by
  unfold Found.read? at h
  repeat' split at h
  all_goals first
    | (obtain ⟨v, hv, rfl⟩ := Option.map_eq_some_iff.1 h
       first
         | exact Nat.lt_succ_self _
         | exact Json.length_skip? hv)
    | simp at h

/-- The entry whose fields go on, and the tokens after its closing brace. -/
def fields? (found : Found) (tokens : List Json.Token) : Option (Entry × List Json.Token) :=
  match tokens with
  | .string (some name) :: .colon :: value =>
    match h : found.read? name value with
    | some (found, .comma :: rest) =>
      have := Found.length_read? h
      fields? found rest
    | some (found, .closeObject :: rest) => (found.entry?).map (·, rest)
    | _ => none
  | _ => none
termination_by tokens.length
decreasing_by
  simp only [List.length_cons] at this ⊢
  omega

/-- The entry at the front, and the tokens after it. -/
def read? : List Json.Token → Option (Entry × List Json.Token)
  | .openObject :: rest => fields? {} rest
  | .openArray :: expression :: .comma :: result :: .comma :: time :: .closeArray :: rest => do
    return (⟨← textOf? expression, ← floatOf? result, ← timeOf? time⟩, rest)
  | _ => none

theorem length_fields? {found : Found} {tokens : List Json.Token} {r : Entry × List Json.Token}
    (h : fields? found tokens = some r) : r.2.length < tokens.length := by
  fun_induction fields? found tokens with
  | case1 found name value found' rest heq this ih =>
    have := ih h
    simp only [List.length_cons] at *
    omega
  | case2 found name value found' rest heq =>
    obtain ⟨e, -, rfl⟩ := Option.map_eq_some_iff.1 h
    have := Found.length_read? heq
    simp only [List.length_cons] at *
    omega
  | case3 => simp at h
  | case4 => simp at h

theorem length_read? {tokens : List Json.Token} {r : Entry × List Json.Token}
    (h : read? tokens = some r) : r.2.length < tokens.length := by
  unfold read? at h
  split at h
  · exact Nat.lt_succ_of_lt (length_fields? h)
  · simp only [Option.bind_eq_bind, Option.bind_eq_some_iff, Option.pure_def] at h
    obtain ⟨_, _, _, _, _, _, h⟩ := h
    cases h
    simp only [List.length_cons]
    omega
  · simp at h

/-- The entries up to the closing bracket, which has to be the last token. -/
def readMore? (tokens : List Json.Token) : Option (List Entry) :=
  match h : read? tokens with
  | some (e, .comma :: rest) =>
    have := length_read? h
    (readMore? rest).map (e :: ·)
  | some (e, [.closeArray]) => some [e]
  | _ => none
termination_by tokens.length
decreasing_by
  simp only [List.length_cons] at this
  omega

def readAll? : List Json.Token → Option (List Entry)
  | [.openArray, .closeArray] => some []
  | .openArray :: rest => readMore? rest
  | _ => none

def decodeAll? (bytes : Bytes) : Option (List Entry) := do
  readAll? (← Json.tokens? (Utf8.scan bytes))

end KeypadCalc.Entry
