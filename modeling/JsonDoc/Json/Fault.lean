/-!
# `JsonDoc.Json.Fault`: malformed JSON texts

A text that cannot be read is a `Json.Fault`: the cause, and where it was noticed, as a line and
the number of bytes before the place in that line.
-/

set_option autoImplicit false

namespace JsonDoc.Json

/-- Why a text cannot be read. -/
inductive Cause where
  | endInValue
  | endInString
  | endInArray
  | endInObject
  | noValue
  | noWord
  | malformedNumber
  | hugeNumber
  | controlCharacter
  | malformedEscape
  | trailSurrogateFirst
  | noTrailSurrogate
  | malformedCharacter
  | noArraySeparator
  | noObjectSeparator
  | noColon
  | noKey
  | trailingComma
  | trailingText
  | nestedTooDeeply
  /-- Containers are nested deeper than the limit given. -/
  | tooDeep (limit : Nat)
  deriving DecidableEq, Repr

/-- The cause in words. -/
def Cause.message : Cause → String
  | endInValue => "EOF while parsing a value"
  | endInString => "EOF while parsing a string"
  | endInArray => "EOF while parsing a list"
  | endInObject => "EOF while parsing an object"
  | noValue => "expected value"
  | noWord => "expected ident"
  | malformedNumber => "invalid number"
  | hugeNumber => "number out of range"
  | controlCharacter => "control character (\\u0000-\\u001F) found while parsing a string"
  | malformedEscape => "invalid escape"
  | trailSurrogateFirst => "lone leading surrogate in hex escape"
  | noTrailSurrogate => "unexpected end of hex escape"
  | malformedCharacter => "invalid unicode code point"
  | noArraySeparator => "expected `,` or `]`"
  | noObjectSeparator => "expected `,` or `\x7d`"
  | noColon => "expected `:`"
  | noKey => "key must be a string"
  | trailingComma => "trailing comma"
  | trailingText => "trailing characters"
  | nestedTooDeeply => "recursion limit exceeded"
  | tooDeep limit => "maximum depth of " ++ toString limit ++ " exceeded"

/-- Why and where a text cannot be read. -/
structure Fault where
  cause : Cause
  line : Nat
  column : Nat
  deriving DecidableEq, Repr

/-- The place of a fault, in words. -/
def placeText (line column : Nat) : String :=
  " at line " ++ toString line ++ " column " ++ toString column

/-- The fault in words. -/
def Fault.message (fault : Fault) : String :=
  fault.cause.message ++ placeText fault.line fault.column

end JsonDoc.Json
