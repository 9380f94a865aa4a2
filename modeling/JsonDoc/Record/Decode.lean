import JsonDoc.Error
import JsonDoc.Json.Numeral
import JsonDoc.Record.Datum

/-!
# `JsonDoc.Record.Decode`: records from values

A type is `Decodable` if its values can be made of generic JSON. `Value.decodeAs` decodes a
document. The parts of a record are decoded in the order of the document, and the first that
does not fit is the one reported.
-/

set_option autoImplicit false

namespace JsonDoc

open Number

/-- What a piece of generic JSON is found to be where something else was wanted. -/
def Json.found : Json → Record.Found
  | null => .null
  | bool b => .bool b
  | number (.integer n) => .integer n
  | number (.float x) => .float x
  | string s => .string s
  | array _ => .sequence
  | object _ => .map

/-- A type whose values can be made of generic JSON. -/
class Decodable (α : Type) where
  decode : Json → Except Record.Fault α

export Decodable (decode)

namespace Record

/-- The failure to find what was wanted. -/
def unfit {α : Type} (json : Json) (wanted : String) : Except Fault α :=
  .error (.wrongType json.found wanted)

/-- An integer from `low` up to, but not including, `high`. -/
def integerWithin (low high : Int) (wanted : String) (json : Json) : Except Fault Int :=
  match json with
  | .number (.integer n) =>
    if low ≤ n ∧ n < high then .ok n else .error (.outOfRange n wanted)
  | json => unfit json wanted

instance : Decodable Bool where
  decode
    | .bool b => .ok b
    | json => unfit json "a boolean"

instance : Decodable Int64 where
  decode json := Int64.ofInt <$> integerWithin (-2 ^ 63) (2 ^ 63) "i64" json

instance : Decodable UInt8 where
  decode json := (fun n => UInt8.ofNat n.toNat) <$> integerWithin 0 (2 ^ 8) "u8" json

instance : Decodable UInt32 where
  decode json := (fun n => UInt32.ofNat n.toNat) <$> integerWithin 0 (2 ^ 32) "u32" json

instance : Decodable UInt64 where
  decode json := (fun n => UInt64.ofNat n.toNat) <$> integerWithin 0 (2 ^ 64) "u64" json

instance : Decodable Binary64 where
  decode
    | .number n => .ok n.toBinary64
    | json => unfit json "f64"

instance : Decodable String where
  decode
    | .string s => .ok s
    | json => unfit json "a string"

instance : Decodable Unit where
  decode
    | .null => .ok ()
    | json => unfit json "unit"

instance : Decodable Value where
  decode json := json.datum.decode

instance {α : Type} [Decodable α] : Decodable (Option α) where
  decode
    | .null => .ok none
    | json => some <$> decode json

instance {α : Type} [Decodable α] : Decodable (List α) where
  decode
    | .array items => items.mapM decode
    | json => unfit json "a sequence"

/-- The next element of a sequence of fixed length, at place `index`, and the elements after it. -/
def element {α : Type} [Decodable α] (wanted : String) (index : Nat) :
    List Json → Except Fault (α × List Json)
  | [] => .error (.wrongLength index wanted)
  | item :: rest => do pure (← decode item, rest)

/-- The record `a`, if no element is left of a sequence that had `length` of them. -/
def finish {α : Type} (length : Nat) (rest : List Json) (a : α) : Except Fault α :=
  if rest.isEmpty then .ok a else .error (.wrongLength length "fewer elements in array")

instance {α β : Type} [Decodable α] [Decodable β] : Decodable (α × β) where
  decode
    | .array items => do
      let (first, rest) ← element "a tuple of size 2" 0 items
      let (second, rest) ← element "a tuple of size 2" 1 rest
      finish items.length rest (first, second)
    | json => unfit json "a tuple of size 2"

/-- A map whose keys are in order. -/
structure Sorted (κ α : Type) where
  entries : List (κ × α)

/-- The entries with `value` at `key`, in the order of `before`; an entry with an equal key is
replaced. -/
def insertSorted {κ α : Type} [BEq κ] (before : κ → κ → Bool) (key : κ) (value : α) :
    List (κ × α) → List (κ × α)
  | [] => [(key, value)]
  | (k, v) :: rest =>
    if k == key then (key, value) :: rest
    else if before key k then (key, value) :: (k, v) :: rest
    else (k, v) :: insertSorted before key value rest

/-- The map of the entries, put in one after the other. -/
def Sorted.ofEntries {κ α : Type} [BEq κ] (before : κ → κ → Bool) (entries : List (κ × α)) :
    Sorted κ α :=
  ⟨entries.foldl (fun sorted entry => insertSorted before entry.1 entry.2 sorted) []⟩

/-- The entries of a map, each key read by `readKey` before its value is decoded. -/
def decodeEntries {κ α : Type} [Decodable α] (readKey : String → Except Fault κ) :
    List (String × Json) → Except Fault (List (κ × α))
  | [] => .ok []
  | (key, item) :: rest => do
    let key ← readKey key
    let item ← decode item
    pure ((key, item) :: (← decodeEntries readKey rest))

instance {α : Type} [Decodable α] : Decodable (Sorted String α) where
  decode
    | .object members =>
      Sorted.ofEntries (fun a b => decide (a < b)) <$> decodeEntries pure members
    | json => unfit json "a map"

/-- The number of a key that is an integer in digits and nothing else. -/
def integerKey (key : String) : Except Fault Int64 :=
  let bytes := bytesOf key
  let start : Option (Bool × List UInt8) :=
    match bytes with
    | 0x2D :: rest => some (true, rest)
    | c :: rest => if Json.isDigit c then some (false, c :: rest) else none
    | [] => none
  match start with
  | none => .error .keyNotNumber
  | some (negative, digits) =>
    match Json.readNumeral negative digits with
    | .error stop => .error (.malformedKey (stop.fault bytes))
    | .ok (n, rest) =>
      match (decode (.number n) : Except Fault Int64) with
      | .error fault => .error (.unfitKey fault (bytes.length - rest.length))
      -- The number is decoded before what follows it is looked at.
      | .ok n => if rest.isEmpty then .ok n else .error .keyNotNumber

instance {α : Type} [Decodable α] : Decodable (Sorted Int64 α) where
  decode
    | .object members =>
      Sorted.ofEntries (fun a b => decide (a < b)) <$> decodeEntries integerKey members
    | json => unfit json "a map"

/-- A field that was read, or else the one that is missing. -/
def required {α : Type} (name : String) (field : Option α) : Except Fault α :=
  match field with
  | some a => .ok a
  | none => .error (.missingField name)

end Record

/-- The record that the document holds. -/
def Value.decodeAs (α : Type) [Decodable α] (v : Value) : Except Error α :=
  match decode v.toJson with
  | .ok a => .ok a
  | .error fault => .error (.undecodable fault)

end JsonDoc
