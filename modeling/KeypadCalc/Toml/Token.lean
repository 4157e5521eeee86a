import KeypadCalc.Text.Hex

/-! The tokens of TOML documents. Comments leave no token; blanks and line ends do, since they
matter in some places. Loops over characters carry a bound on their steps, which is the number of
characters at hand. -/

namespace KeypadCalc.Toml

/-- The tokens of TOML documents. A bare token is a run of characters without a meaning of their
own: a key, or a value that is not quoted. -/
inductive Token
  | bare (t : Text)
  | string (t : Text) (multiline : Bool)
  | space (t : Text)
  | newline
  | dot
  | equals
  | comma
  | openSquare
  | closeSquare
  | openCurly
  | closeCurly
deriving DecidableEq, Repr

/-- The characters that may stand in strings and comments. -/
def isTextChar (c : Char) : Bool := c == '\t' || (0x20 ≤ c.toNat && c.toNat != 0x7F)

def isSpace (c : Char) : Bool := c == ' ' || c == '\t'

/-- The characters that end a bare token. -/
def endsBare (c : Char) : Bool :=
  isSpace c || c == '.' || c == '=' || c == ',' || c == '[' || c == ']' || c == '{' || c == '}'
    || c == '#' || c == '\n' || c == '\r'

/-- A text without the line end at its front, if there is one. -/
def afterNewline? : Text → Option Text
  | '\n' :: rest => some rest
  | '\r' :: '\n' :: rest => some rest
  | _ => none

def codePoint? (digits : Text) : Option Char := do
  let n ← Text.ofDigits? 16 digits
  if n.isValidChar then some (.ofNat n) else none

/-- The character that an escape after a backslash stands for, and what follows it. -/
def escape? : Text → Option (Char × Text)
  | 'b' :: rest => some ('\x08', rest)
  | 't' :: rest => some ('\t', rest)
  | 'n' :: rest => some ('\n', rest)
  | 'f' :: rest => some ('\x0c', rest)
  | 'r' :: rest => some ('\r', rest)
  | 'e' :: rest => some ('\x1b', rest)
  | '"' :: rest => some ('"', rest)
  | '\\' :: rest => some ('\\', rest)
  | 'x' :: rest => (escaped? 2 rest).map (·, rest.drop 2)
  | 'u' :: rest => (escaped? 4 rest).map (·, rest.drop 4)
  | 'U' :: rest => (escaped? 8 rest).map (·, rest.drop 8)
  | _ => none
where
  /-- The character whose code point has `n` digits. -/
  escaped? (n : Nat) (t : Text) : Option Char :=
    if (t.take n).length = n then codePoint? (t.take n) else none

/-- The content of a literal string up to its closing mark, and what follows it. -/
def literal? : Text → Option (Text × Text)
  | [] => none
  | '\'' :: rest => some ([], rest)
  | c :: rest => if isTextChar c then (literal? rest).map fun r => (c :: r.1, r.2) else none

/-- The content of a basic string up to its closing mark, and what follows it. -/
def basic? : Nat → Text → Option (Text × Text)
  | _ + 1, '"' :: rest => some ([], rest)
  | bound + 1, '\\' :: rest => do
    let (c, rest) ← escape? rest
    let (content, after) ← basic? bound rest
    return (c :: content, after)
  | bound + 1, c :: rest =>
    if isTextChar c then (basic? bound rest).map fun r => (c :: r.1, r.2) else none
  | _, _ => none

/-- A text without the blanks and line ends at its front. -/
def afterBlankLines : Text → Text
  | ' ' :: rest | '\t' :: rest | '\n' :: rest => afterBlankLines rest
  | '\r' :: '\n' :: rest => afterBlankLines rest
  | t => t

/-- What follows a backslash at the end of a line: the text after all blanks and line ends. -/
def continued? (t : Text) : Option Text :=
  (afterNewline? (t.dropWhile isSpace)).map afterBlankLines

/-- The content of a string of several lines up to its closing marks, and what follows it. Up to
two marks more than the closing three belong to the content. -/
def multiline? (mark : Char) (escapes : Bool) : Nat → Text → Option (Text × Text)
  | 0, _ => none
  | bound + 1, t =>
    let marks := min (t.takeWhile (· == mark)).length 5
    if 3 ≤ marks then some (List.replicate (marks - 3) mark, t.drop marks)
    else
      let go (front rest : Text) : Option (Text × Text) :=
        (multiline? mark escapes bound rest).map fun r => (front ++ r.1, r.2)
      match t with
      | [] => none
      | '\n' :: rest => go ['\n'] rest
      | '\r' :: '\n' :: rest => go ['\r', '\n'] rest
      | '\\' :: rest =>
        if !escapes then go ['\\'] rest
        else match continued? rest with
          | some rest => go [] rest
          | none => (escape? rest).bind fun e => go [e.1] e.2
      | c :: rest => if isTextChar c then go [c] rest else none

/-- The content of a string of several lines after its opening marks, where a line end does not
count. -/
def multilineContent? (mark : Char) (escapes : Bool) (t : Text) : Option (Text × Text) :=
  multiline? mark escapes (t.length + 1) ((afterNewline? t).getD t)

/-- What follows a comment on its line, if the comment is proper. -/
def afterComment? (t : Text) : Option Text :=
  let comment := t.takeWhile (· != '\n')
  let rest := t.dropWhile (· != '\n')
  let comment := if !rest.isEmpty && comment.getLast? = some '\r' then comment.dropLast else comment
  if comment.all isTextChar then some rest else none

/-- The first token of a text that is not empty, and what follows it; a comment has none. -/
def first? : Text → Option (Option Token × Text)
  | '.' :: rest => some (some .dot, rest)
  | '=' :: rest => some (some .equals, rest)
  | ',' :: rest => some (some .comma, rest)
  | '[' :: rest => some (some .openSquare, rest)
  | ']' :: rest => some (some .closeSquare, rest)
  | '{' :: rest => some (some .openCurly, rest)
  | '}' :: rest => some (some .closeCurly, rest)
  | '\n' :: rest => some (some .newline, rest)
  | '\r' :: '\n' :: rest => some (some .newline, rest)
  | '#' :: rest => (afterComment? rest).map (none, ·)
  | '"' :: '"' :: '"' :: rest =>
    (multilineContent? '"' true rest).map fun r => (some (.string r.1 true), r.2)
  | '\'' :: '\'' :: '\'' :: rest =>
    (multilineContent? '\'' false rest).map fun r => (some (.string r.1 true), r.2)
  | '"' :: rest => (basic? rest.length rest).map fun r => (some (.string r.1 false), r.2)
  | '\'' :: rest => (literal? rest).map fun r => (some (.string r.1 false), r.2)
  | c :: rest =>
    let t := c :: rest
    if isSpace c then some (some (.space (t.takeWhile isSpace)), t.dropWhile isSpace)
    else if c == '\r' then none
    else
      let run := t.takeWhile fun c => !endsBare c
      some (some (.bare run), t.drop run.length)
  | [] => none

/-- The tokens of a text, within a number of steps. -/
def tokensWithin? : Nat → Text → Option (List Token)
  | _, [] => some []
  | 0, _ => none
  | bound + 1, t => do
    let (token, rest) ← first? t
    let tokens ← tokensWithin? bound rest
    return token.toList ++ tokens

def byteOrderMark : Char := '\uFEFF'

def tokens? (t : Text) : Option (List Token) :=
  let t := if t.head? = some byteOrderMark then t.tail else t
  tokensWithin? t.length t

end KeypadCalc.Toml
