import KeypadCalc.Json.Token

/-! Passing over a JSON value whose content does not matter. The open brackets are kept in a list,
so a value may be nested to any depth. -/

namespace KeypadCalc.Json

inductive Bracket
  | array
  | object
deriving DecidableEq, Repr

/-- What may come next in the innermost bracket. -/
inductive Expecting
  | value
  | valueOrClose
  | key
  | keyOrClose
  | colon
  | commaOrClose
deriving DecidableEq, Repr

/-- The open brackets, innermost first, and what may come next. -/
abbrev Nesting := List Bracket × Expecting

/-- What a token does to the nesting where a value is expected. -/
def startValue (outer : List Bracket) : Token → Option Nesting
  | .openArray => some (.array :: outer, .valueOrClose)
  | .openObject => some (.object :: outer, .keyOrClose)
  | .null | .true | .false | .number _ | .string _ => some (outer, .commaOrClose)
  | _ => none

/-- What a token does to the nesting, unless it has no place there. -/
def advance : Nesting → Token → Option Nesting
  | (.array :: outer, .valueOrClose), .closeArray
  | (.array :: outer, .commaOrClose), .closeArray
  | (.object :: outer, .keyOrClose), .closeObject
  | (.object :: outer, .commaOrClose), .closeObject => some (outer, .commaOrClose)
  | (.array :: outer, .commaOrClose), .comma => some (.array :: outer, .value)
  | (.object :: outer, .commaOrClose), .comma => some (.object :: outer, .key)
  | (stack, .key), .string _ | (stack, .keyOrClose), .string _ => some (stack, .colon)
  | (stack, .colon), .colon => some (stack, .value)
  | (stack, .value), token | (stack, .valueOrClose), token => startValue stack token
  | _, _ => none

/-- The tokens after the value that the nesting is in the middle of. -/
def skipFrom? (nesting : Nesting) : List Token → Option (List Token)
  | [] => none
  | token :: rest =>
    match advance nesting token with
    | none => none
    | some ([], _) => some rest
    | some inner => skipFrom? inner rest

/-- The tokens after the value at the front. -/
def skip? (tokens : List Token) : Option (List Token) := skipFrom? ([], .value) tokens

theorem length_skipFrom? {nesting : Nesting} {tokens rest : List Token}
    (h : skipFrom? nesting tokens = some rest) : rest.length < tokens.length := by
  fun_induction skipFrom? nesting tokens with
  | case1 => simp at h
  | case2 => simp at h
  | case3 => cases h; exact Nat.lt_succ_self _
  | case4 _ _ _ _ _ _ ih => exact Nat.lt_succ_of_lt (ih h)

theorem length_skip? {tokens rest : List Token} (h : skip? tokens = some rest) :
    rest.length < tokens.length := length_skipFrom? h

end KeypadCalc.Json
