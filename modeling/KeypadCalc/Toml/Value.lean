import KeypadCalc.Text.Hex

/-! The values of TOML documents, and values that are written without quotes. Numbers and date-times
are kept as they are spelled. -/

namespace KeypadCalc.Toml

/-- How a table came into being, on which depends what may be added to it. -/
inductive Origin
  /-- Between braces: nothing may be added. -/
  | inline
  /-- By a header of its own. -/
  | header
  /-- By the header of a table inside it; a header of its own may follow. -/
  | implied
  /-- By a dotted key; more dotted keys may follow. -/
  | dotted
deriving DecidableEq, Repr

inductive Value
  | string (t : Text)
  | integer (base : Nat) (digits : Text)
  | boolean (b : Bool)
  | float (spelling : Text)
  | dateTime (spelling : Text)
  | array (items : List Value)
  | table (origin : Origin) (entries : List (Text × Value))
  | tables (all : List (List (Text × Value)))

namespace Value

/-! ### Numbers -/

def unsigned : Text → Text
  | '+' :: rest => rest
  | '-' :: rest => rest
  | t => t

def isDigitOf (base : Nat) (c : Char) : Bool := (Text.hexValue? c).any (· < base)

/-- Each underscore of a text, which follows `previous`, stands between two digits. -/
def underscoresFitAfter (isDigit : Char → Bool) (previous : Char) : Text → Bool
  | [] => previous != '_'
  | c :: rest =>
    (c != '_' || isDigit previous) && (previous != '_' || isDigit c)
      && underscoresFitAfter isDigit c rest

/-- Each underscore of a text stands between two digits. -/
def underscoresFit (isDigit : Char → Bool) : Text → Bool
  | [] => true
  | c :: rest => c != '_' && underscoresFitAfter isDigit c rest

def withoutUnderscores (t : Text) : Text := t.filter (· != '_')

/-- The whole number that a text spells after the mark of a base. -/
def based? (base : Nat) (t : Text) : Option Value :=
  if t.all (fun c => c == '_' || isDigitOf base c) && underscoresFit (isDigitOf 16) t then
    some (integer base (withoutUnderscores t))
  else none

/-- A zero stands in front of further characters. -/
def hasLeadingZero (t : Text) : Bool := t.head? = some '0' && t.length != 1

/-- The whole number in base ten that a text spells. After its first underscore any characters are
admitted that could not make it a float or a text of several words: they tell only when the number
is used. -/
def decimal? (t : Text) : Option Value :=
  if !hasLeadingZero (unsigned t) && underscoresFit (isDigitOf 16) t then
    some (integer 10 (withoutUnderscores t))
  else none

def isRunChar (c : Char) : Bool := c.isDigit || c == '_'

/-- The number of digits at the front of a text, where underscores do not count. -/
def digitRun (t : Text) : Nat := ((t.takeWhile isRunChar).filter Char.isDigit).length

/-- A text spells the power of ten of a float, or nothing. -/
def isPower : Text → Bool
  | [] => true
  | 'e' :: rest | 'E' :: rest =>
    digitRun (unsigned rest) != 0 && ((unsigned rest).dropWhile isRunChar).isEmpty
  | _ => false

/-- A text spells a float without a sign, wherever its underscores stand. -/
def isMagnitude (t : Text) : Bool :=
  digitRun t != 0 && !(t.head? = some '0' && digitRun t != 1) &&
    match t.dropWhile isRunChar with
    | '.' :: rest => digitRun rest != 0 && isPower (rest.dropWhile isRunChar)
    | rest => isPower rest

def float? (t : Text) : Option Value :=
  if isMagnitude (unsigned t) && underscoresFit Char.isDigit t then
    some (float (withoutUnderscores t))
  else none

/-- The whole number that digits in a base stand for, perhaps with a sign. -/
def wholeNumber? (base : Nat) (digits : Text) : Option Int :=
  match digits, unsigned digits with
  | _, [] => none
  | '-' :: _, magnitude => (Text.ofDigits? base magnitude).map fun n => -n
  | _, magnitude => (Text.ofDigits? base magnitude).map Int.ofNat

/-! ### Dates and times -/

/-- The number of `n` digits at the front of a text, and what follows them. -/
def fixed? (n : Nat) (t : Text) : Option (Nat × Text) :=
  let digits := t.take n
  if digits.length = n ∧ digits.all Char.isDigit then
    some (Nat.ofDigitChars 10 digits 0, t.drop n)
  else none

/-- A text without the given character at its front. -/
def after? (c : Char) : Text → Option Text
  | d :: rest => if d = c then some rest else none
  | [] => none

def daysIn (year month : Nat) : Nat :=
  if month = 2 then
    if year % 4 = 0 ∧ (year % 100 ≠ 0 ∨ year % 400 = 0) then 29 else 28
  else if month = 4 ∨ month = 6 ∨ month = 9 ∨ month = 11 then 30 else 31

/-- What follows a date at the front of a text. -/
def afterDate? (t : Text) : Option Text := do
  let (year, t) ← fixed? 4 t
  let (month, t) ← fixed? 2 (← after? '-' t)
  let (day, t) ← fixed? 2 (← after? '-' t)
  if 1 ≤ month ∧ month ≤ 12 ∧ 1 ≤ day ∧ day ≤ daysIn year month then some t else none

/-- What follows hours and minutes at the front of a text. -/
def afterMinutes? (t : Text) : Option Text := do
  let (hour, t) ← fixed? 2 t
  let (minute, t) ← fixed? 2 (← after? ':' t)
  if hour ≤ 23 ∧ minute ≤ 59 then some t else none

/-- What follows a time at the front of a text; its seconds may be missing. -/
def afterTime? (t : Text) : Option Text := do
  match ← afterMinutes? t with
  | ':' :: t =>
    let (second, t) ← fixed? 2 t
    if 60 < second then none
    match t with
    | '.' :: t =>
      if (t.takeWhile Char.isDigit).isEmpty then none else some (t.dropWhile Char.isDigit)
    | t => some t
  | t => some t

/-- A text spells the distance to universal time, or nothing. -/
def isOffset : Text → Bool
  | [] | ['Z'] | ['z'] => true
  | '+' :: t | '-' :: t => afterMinutes? t = some []
  | _ => false

/-- A text spells a date, a time, or both. -/
def isDateTime (t : Text) : Bool :=
  match afterDate? t with
  | none => afterTime? t = some []
  | some [] => true
  | some (c :: rest) =>
    (c == 'T' || c == 't' || c == ' ') && (afterTime? rest).any isOffset

/-- The number, the date or the time that a text spells. What follows its first digits tells which
of them it may be. -/
def number? (t : Text) : Option Value :=
  match t with
  | '0' :: 'x' :: digits => based? 16 digits
  | '0' :: 'o' :: digits => based? 8 digits
  | '0' :: 'b' :: digits => based? 2 digits
  | t =>
    let isFloatChar (c : Char) : Bool := c == '.' || c == 'e' || c == 'E'
    match unsigned t, (unsigned t).dropWhile Char.isDigit with
    | [], _ => none
    | _, [] => decimal? t
    | _, '-' :: _ | _, ':' :: _ => if isDateTime t then some (dateTime t) else none
    | _, c :: rest =>
      if rest.contains ' ' then none
      else if (c :: rest).any isFloatChar then float? t
      else if c = '_' then decimal? t
      else none

def ofBare? (t : Text) : Option Value :=
  match String.ofList t with
  | "true" => some (boolean true)
  | "false" => some (boolean false)
  | _ =>
    match String.ofList (unsigned t) with
    | "inf" | "nan" => some (float t)
    | _ => number? t

end Value

end KeypadCalc.Toml
