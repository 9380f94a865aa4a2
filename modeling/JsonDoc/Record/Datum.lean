import JsonDoc.Json.Document
import JsonDoc.Record.Fault

/-!
# `JsonDoc.Record.Datum`: what encoders and decoders exchange

A `Datum` is a record taken apart: more than JSON has, so that integers of different widths,
bytes, optional values and keys that are not text can be told apart. `Datum.toJson` makes
generic JSON of it and `Datum.toValue` a document, each with its own limits; `Value.datum` and
`Json.datum` take a document and generic JSON apart.
-/

set_option autoImplicit false

namespace JsonDoc

open Number

/-- A record taken apart. -/
inductive Datum where
  | unit
  | bool (b : Bool)
  /-- An integer of at most 64 bits. -/
  | integer (n : Int)
  /-- An integer of 128 bits. -/
  | wide (signed : Bool) (n : Int)
  | float (x : Binary64)
  | text (s : String)
  | bytes (content : List UInt8)
  /-- An optional value that is not there. -/
  | absent
  /-- An optional value that is there. -/
  | present (content : Datum)
  | sequence (items : List Datum)
  | map (entries : List (Datum × Datum))
  deriving Inhabited

namespace Datum

/-- The text of a key: text itself, the names of the booleans, and numbers in digits. -/
def keyText : Datum → Except Record.EncodeFault String
  | text s => .ok s
  | bool b => .ok (if b then "true" else "false")
  | integer n => .ok (String.ofList (integerText n))
  | wide _ n => .ok (String.ofList (integerText n))
  | _ => .error .keyNotText

mutual

/-- The datum as generic JSON; a number that is not finite becomes null, and wide integers must
fit in 64 bits. -/
def toJson : Datum → Except Record.EncodeFault Json
  | unit => .ok .null
  | bool b => .ok (.bool b)
  | integer n => .ok (.number (.integer n))
  | wide _ n =>
    if -2 ^ 63 ≤ n ∧ n < 2 ^ 64 then .ok (.number (.integer n)) else .error .numberOutOfRange
  | float x => .ok (if x.isFinite then .number (.float x) else .null)
  | text s => .ok (.string s)
  | bytes content => .ok (.array (content.map fun b => .number (.integer b.toNat)))
  | absent => .ok .null
  | present content => content.toJson
  | sequence items => do pure (.array (← toJsonItems items))
  | map entries => do pure (.object (Members.ofPairs (← toJsonEntries entries)))

/-- The items as generic JSON. -/
def toJsonItems : List Datum → Except Record.EncodeFault (List Json)
  | [] => .ok []
  | item :: rest => do
    let item ← item.toJson
    pure (item :: (← toJsonItems rest))

/-- The entries as generic JSON, under the texts of their keys. -/
def toJsonEntries : List (Datum × Datum) → Except Record.EncodeFault (List (String × Json))
  | [] => .ok []
  | (key, item) :: rest => do
    let key ← key.keyText
    let item ← item.toJson
    pure ((key, item) :: (← toJsonEntries rest))

end

/-- What a datum is found to be where something else was wanted. -/
def found : Datum → Record.Found
  | unit => .null
  | bool b => .bool b
  | integer n => .integer n
  | wide signed n => .wide signed n
  | float x => .float x
  | text s => .string s
  | bytes _ => .bytes
  | absent => .null
  | present content => content.found
  | sequence _ => .sequence
  | map _ => .map

/-- The text that a key of a document has to be. -/
def asKey : Datum → Except Record.Fault String
  | text s => .ok s
  | key => .error (.wrongType key.found "a string")

mutual

/-- The datum as a document. `room` is how many more containers may be nested, `limit` how many
there may be in all. -/
def toValue (limit room : Nat) : Datum → Except Record.Fault Value
  | unit => .ok .null
  | bool b => .ok (.bool b)
  | integer n => .ok (.ofInt n)
  | wide signed n => .error (.wrongType (.wide signed n) "any valid JSON value")
  | float x => .ok (.number x)
  | text s => .ok (.string s)
  | bytes _ => .error (.wrongType .bytes "any valid JSON value")
  | absent => .ok .null
  | present content => content.toValue limit room
  | sequence items =>
    match room with
    | 0 => .error (.tooDeep limit)
    | room + 1 => do pure (.array (← toValueItems limit room items))
  | map entries =>
    match room with
    | 0 => .error (.tooDeep limit)
    | room + 1 => do pure (.object (Members.ofPairs (← toValueEntries limit room entries)))

/-- The items as documents. -/
def toValueItems (limit room : Nat) : List Datum → Except Record.Fault (List Value)
  | [] => .ok []
  | item :: rest => do
    let item ← item.toValue limit room
    pure (item :: (← toValueItems limit room rest))

/-- The entries as members of a document. -/
def toValueEntries (limit room : Nat) :
    List (Datum × Datum) → Except Record.Fault (List (String × Value))
  | [] => .ok []
  | (key, item) :: rest => do
    let key ← key.asKey
    let item ← item.toValue limit room
    pure ((key, item) :: (← toValueEntries limit room rest))

end

/-- The datum as a document with containers nested to the usual depth. -/
def decode (datum : Datum) : Except Record.Fault Value :=
  datum.toValue defaultMaxDepth defaultMaxDepth

end Datum

/-- A number of a document, taken apart: an integer of at most `maxSafeInteger` as such, and
nothing for a number that is not finite. -/
def numberDatum (x : Binary64) : Datum :=
  if !x.isFinite then .unit
  else
    match safeInteger? x with
    | some n => .integer n
    | none => .float x

namespace Value

mutual

/-- The document, taken apart. -/
def datum : Value → Datum
  | null => .unit
  | bool b => .bool b
  | number x => numberDatum x
  | string s => .text s
  | array items => .sequence (datumItems items)
  | object members => .map (datumMembers members)

/-- The items, taken apart. -/
def datumItems : List Value → List Datum
  | [] => []
  | item :: rest => datum item :: datumItems rest

/-- The members, taken apart. -/
def datumMembers : List (String × Value) → List (Datum × Datum)
  | [] => []
  | (key, item) :: rest => (.text key, datum item) :: datumMembers rest

end

end Value

namespace Json

mutual

/-- Generic JSON, taken apart. -/
def datum : Json → Datum
  | null => .unit
  | bool b => .bool b
  | number (.integer n) => .integer n
  | number (.float x) => .float x
  | string s => .text s
  | array items => .sequence (datumItems items)
  | object members => .map (datumMembers members)

/-- The items, taken apart. -/
def datumItems : List Json → List Datum
  | [] => []
  | item :: rest => datum item :: datumItems rest

/-- The members, taken apart. -/
def datumMembers : List (String × Json) → List (Datum × Datum)
  | [] => []
  | (key, item) :: rest => (.text key, datum item) :: datumMembers rest

end

end Json

end JsonDoc
