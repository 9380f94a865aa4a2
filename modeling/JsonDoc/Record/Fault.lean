import JsonDoc.Json.Fault
import JsonDoc.Number.Written
import JsonDoc.Text.Quoted

/-!
# `JsonDoc.Record.Fault`: values that do not fit a record

Decoding a record from a value fails where the value has another form than the record. A
`Record.Fault` says what was found and what was wanted; one inside a key that should have been a
number also has its place in the key. Encoding fails, with an `EncodeFault`, only for integers
too large for JSON and for keys that are not text.
-/

set_option autoImplicit false

namespace JsonDoc.Record

open Number

/-- What was found in place of what was wanted. -/
inductive Found where
  | null
  | bool (b : Bool)
  | integer (n : Int)
  /-- An integer of 128 bits, signed or not. -/
  | wide (signed : Bool) (n : Int)
  | float (x : Binary64)
  | string (s : String)
  | bytes
  | sequence
  | map
  deriving DecidableEq, Repr

/-- What was found, in words. -/
def Found.text : Found → String
  | null => "null"
  | bool b => "boolean `" ++ (if b then "true" else "false") ++ "`"
  | integer n => "integer `" ++ toString n ++ "`"
  | wide signed n => "integer `" ++ toString n ++ "` as " ++ (if signed then "i128" else "u128")
  | float x => "floating point `" ++ x.json ++ "`"
  | string s => "string " ++ Text.quoted s
  | bytes => "byte array"
  | sequence => "sequence"
  | map => "map"

/-- Why a value does not fit a record. -/
inductive Fault where
  /-- Something else than the type wanted. -/
  | wrongType (found : Found) (wanted : String)
  /-- An integer outside the type wanted. -/
  | outOfRange (n : Int) (wanted : String)
  /-- A sequence of another length. -/
  | wrongLength (length : Nat) (wanted : String)
  /-- A field that has to be there is not. -/
  | missingField (name : String)
  /-- A key that is not a number in digits. -/
  | keyNotNumber
  /-- A key that starts like a number and cannot be read as one. -/
  | malformedKey (fault : Json.Fault)
  /-- A number in a key that does not fit, and the column where it ends. -/
  | unfitKey (fault : Fault) (column : Nat)
  /-- Containers nested deeper than the limit. -/
  | tooDeep (limit : Nat)
  deriving DecidableEq, Repr

/-- The fault in words. -/
def Fault.message : Fault → String
  | wrongType found wanted => "invalid type: " ++ found.text ++ ", expected " ++ wanted
  | outOfRange n wanted => "invalid value: " ++ (Found.integer n).text ++ ", expected " ++ wanted
  | wrongLength length wanted => "invalid length " ++ toString length ++ ", expected " ++ wanted
  | missingField name => "missing field `" ++ name ++ "`"
  | keyNotNumber => "invalid value: expected key to be a number in quotes"
  | malformedKey fault => fault.message
  | unfitKey fault column => fault.message ++ Json.placeText 1 column
  | tooDeep limit => "maximum depth of " ++ toString limit ++ " exceeded"

/-- Why a record cannot be encoded. -/
inductive EncodeFault where
  | numberOutOfRange
  | keyNotText
  deriving DecidableEq, Repr

/-- The fault in words. -/
def EncodeFault.message : EncodeFault → String
  | numberOutOfRange => "number out of range"
  | keyNotText => "key must be a string"

end JsonDoc.Record
