import JsonDoc.Members
import JsonDoc.Number.Binary64

/-!
# `JsonDoc.Json.Basic`: JSON as data

`Json` is what a JSON text stands for before it becomes a document: its numerals are integers of
64 bits, signed or unsigned, or double-precision numbers, and they are kept apart.
-/

set_option autoImplicit false

namespace JsonDoc

open Number

/-- A number of a JSON text. -/
inductive Numeral where
  /-- An integer of 64 bits, signed or unsigned. -/
  | integer (n : Int)
  /-- Any other number. -/
  | float (x : Binary64)
  deriving DecidableEq, Repr

/-- What a JSON text stands for. -/
inductive Json where
  | null
  | bool (b : Bool)
  | number (n : Numeral)
  | string (s : String)
  | array (items : List Json)
  | object (members : List (String × Json))
  deriving Inhabited

/-- The nearest double-precision number. -/
def Numeral.toBinary64 : Numeral → Binary64
  | integer n => .ofInt n
  | float x => x

end JsonDoc
