import JsonDoc.Json.Reader
import JsonDoc.Value.Basic

/-!
# `JsonDoc.Json.Document`: documents and generic JSON

`Value.parse` reads a document from a JSON text, and `Json.parse` reads generic JSON.
`Value.ofJson` and `Value.toJson` convert between the two: every number of a document is one of
double precision, and a document's numbers become integers where that says the same
(`numeral?`). Numbers that are not finite have no place in JSON and become null.
-/

set_option autoImplicit false

namespace JsonDoc

open Number

/-- How deep containers may be nested where nothing else is asked for. -/
def defaultMaxDepth : Nat := 100

/-- The largest magnitude up to which every integer is a number of double precision. -/
def maxSafeInteger : Nat := 2 ^ 53

/-- The integer that a number is written as: one of at most `maxSafeInteger`. -/
def safeInteger? (x : Binary64) : Option Int :=
  if x.isWhole && x.abs.atMost (.ofInt maxSafeInteger) then some x.toInt64 else none

/-- The number as one of generic JSON; there is none for a number that is not finite. -/
def numeral? (x : Binary64) : Option Numeral :=
  match safeInteger? x with
  | some n => some (.integer n)
  | none => if x.isFinite then some (.float x) else none

/-- Documents, built from the parts of a text. -/
def Value.builder : Json.Builder Value where
  null := .null
  bool := .bool
  number n := .number n.toBinary64
  string := .string
  array := .array
  object pairs := .object (Members.ofPairs pairs)

/-- Generic JSON, built from the parts of a text. -/
def Json.builder : Json.Builder Json where
  null := .null
  bool := .bool
  number := .number
  string := .string
  array := .array
  object pairs := .object (Members.ofPairs pairs)

/-- The document of a JSON text with containers nested at most `limit` deep. -/
def Value.parse (limit : Nat) (text : List UInt8) : Except Json.Fault Value :=
  Json.readText Value.builder limit text

/-- The generic JSON of a text. -/
def Json.parse (text : List UInt8) : Except Json.Fault Json :=
  Json.readText Json.builder Json.nestingLimit text

/-- The bytes of a string. -/
def bytesOf (s : String) : List UInt8 := s.toUTF8.data.toList

/-- The document of a JSON text with containers nested to the usual depth. -/
def Value.ofText (s : String) : Except Json.Fault Value := Value.parse defaultMaxDepth (bytesOf s)

namespace Value

mutual

/-- The document of generic JSON. -/
def ofJson : Json → Value
  | .null => null
  | .bool b => bool b
  | .number n => number n.toBinary64
  | .string s => string s
  | .array items => array (ofJsonItems items)
  | .object members => object (Members.ofPairs (ofJsonMembers members))

/-- The documents of the items. -/
def ofJsonItems : List Json → List Value
  | [] => []
  | item :: rest => ofJson item :: ofJsonItems rest

/-- The documents of the members, under their keys. -/
def ofJsonMembers : List (String × Json) → List (String × Value)
  | [] => []
  | (key, item) :: rest => (key, ofJson item) :: ofJsonMembers rest

end

mutual

/-- The document as generic JSON. -/
def toJson : Value → Json
  | null => .null
  | bool b => .bool b
  | number x => match numeral? x with
    | some n => .number n
    | none => .null
  | string s => .string s
  | array items => .array (toJsonItems items)
  | object members => .object (Members.ofPairs (toJsonMembers members))

/-- The items as generic JSON. -/
def toJsonItems : List Value → List Json
  | [] => []
  | item :: rest => toJson item :: toJsonItems rest

/-- The members as generic JSON, under their keys. -/
def toJsonMembers : List (String × Value) → List (String × Json)
  | [] => []
  | (key, item) :: rest => (key, toJson item) :: toJsonMembers rest

end

end Value

end JsonDoc
