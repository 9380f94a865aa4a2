import JsonDoc.Path.Name

/-!
# `JsonDoc.Path.Fault`: malformed paths

A path text that cannot be read is a `Path.Fault`: what was expected, and where. The place is
counted in bytes; the token is the name that starts there, or else the one character there, and
it is empty at the end of the text.
-/

set_option autoImplicit false

namespace JsonDoc.Path

/-- What the text should have had where it could not be read. -/
inductive Expectation where
  | root
  | noMore
  | descendant
  | member
  | index
  | closingBracket
  | openingParen
  | closingFilter
  | closingParen
  | term
  | fieldName
  | literal
  | closingQuote
  | escape
  | shallower
  deriving DecidableEq, Repr

/-- What is wrong, in words. -/
def Expectation.detail : Expectation → String
  | root => "path must start with '$'"
  | noMore => "unexpected trailing characters"
  | descendant => "expected member name, '*' or '[' after '..'"
  | member => "expected member name or '*' after '.'"
  | index => "array index must be an integer or a quoted name"
  | closingBracket => "unterminated bracket, expected ']'"
  | openingParen => "expected '(' after '?'"
  | closingFilter => "expected ')' to close the filter"
  | closingParen => "expected ')'"
  | term => "expected a condition starting with '@' or '('"
  | fieldName => "expected member name after '.'"
  | literal => "expected a literal: string, number, true, false or null"
  | closingQuote => "unterminated string"
  | escape => "invalid escape sequence"
  | shallower => "condition nested too deeply"

/-- Why a text is not a path. -/
structure Fault where
  /-- The number of bytes before the place. -/
  position : Nat
  /-- What stands at the place; empty at the end of the text. -/
  token : String
  expected : Expectation
  deriving DecidableEq, Repr

/-- The name at the start of `rest`, or else its first character. -/
def tokenOf (rest : List Char) : List Char :=
  match rest with
  | [] => []
  | c :: _ => if isNameChar c then rest.takeWhile isNameChar else [c]

/-- The fault in words. -/
def Fault.message (fault : Fault) : String :=
  let found := if fault.token.isEmpty then "end of input" else "'" ++ fault.token ++ "'"
  "at position " ++ toString fault.position ++ ", unexpected " ++ found ++ ": " ++
    fault.expected.detail

end JsonDoc.Path
