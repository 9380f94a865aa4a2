import JsonDoc.Text.Blank
import JsonDoc.Value.Basic

/-!
# `JsonDoc.Value.Scalar`: reading scalars as other types

A scalar can be read as a boolean, a number, a 64-bit or 32-bit integer, or a string. Numbers
are also read from strings that hold a finite decimal numeral, blanks around it aside; integers
only from numbers that are whole and in range, so no reading rounds, wraps or saturates. What
cannot be read is a `Conversion`, which names the kind found and the type wanted.
-/

set_option autoImplicit false

namespace JsonDoc

open Number

/-- A type that a scalar can be read as. -/
inductive ScalarType where
  | bool
  | float
  | int64
  | int32
  | string
  deriving DecidableEq, Repr

/-- The name of the type in messages. -/
def ScalarType.name : ScalarType → String
  | bool => "bool"
  | float => "f64"
  | int64 => "i64"
  | int32 => "i32"
  | string => "string"

/-- A value that cannot be read as the type wanted. -/
structure Conversion where
  found : Kind
  wanted : ScalarType
  deriving DecidableEq, Repr

namespace Value

/-- The failure to read the value as `wanted`. -/
def conversion (v : Value) (wanted : ScalarType) : Conversion := ⟨v.kind, wanted⟩

/-- The finite number that a string holds, blanks around it aside. -/
def numeral? (s : String) : Option Binary64 :=
  (Binary64.ofText? (Text.trim s)).filter Binary64.isFinite

/-- A boolean; zero and the empty string are false, other numbers and strings are true. -/
def asBool (v : Value) : Except Conversion Bool :=
  match v with
  | bool b => .ok b
  | number x => .ok (!x.isZero)
  | string s => .ok (!s.isEmpty)
  | _ => .error (v.conversion .bool)

/-- The number as an option: a number itself, or the numeral that a string holds. -/
def number? : Value → Option Binary64
  | number x => some x
  | string s => numeral? s
  | _ => none

/-- A number, or the numeral that a string holds. -/
def asFloat (v : Value) : Except Conversion Binary64 :=
  match v.number? with
  | some x => .ok x
  | none => .error (v.conversion .float)

/-- A 64-bit integer, from a number or numeral that is whole and in range. -/
def asInt64 (v : Value) : Except Conversion Int :=
  match v.asFloat with
  | .error _ => .error (v.conversion .int64)
  | .ok x =>
    -- The largest integer of 64 bits rounds up to `2 ^ 63`, which is out of range.
    if !x.isWhole || x.lessThan (.ofInt (-2 ^ 63)) || (Binary64.ofInt (2 ^ 63 - 1)).atMost x then
      .error (v.conversion .int64)
    else .ok x.toInt64

/-- A 32-bit integer, from a 64-bit integer that is in range. -/
def asInt32 (v : Value) : Except Conversion Int :=
  match v.asInt64 with
  | .ok n => if -2 ^ 31 ≤ n && n < 2 ^ 31 then .ok n else .error (v.conversion .int32)
  | .error _ => .error (v.conversion .int32)

/-- The text of a string. -/
def asString (v : Value) : Except Conversion String :=
  match v with
  | string s => .ok s
  | _ => .error (v.conversion .string)

/-- The items of an array. -/
def array? : Value → Option (List Value)
  | array items => some items
  | _ => none

/-- The members of an object. -/
def object? : Value → Option (List (String × Value))
  | object members => some members
  | _ => none

end Value

end JsonDoc
