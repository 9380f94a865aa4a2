import JsonDoc.Members
import JsonDoc.Number.Written
import JsonDoc.Value.Kind

/-!
# `JsonDoc.Value.Basic`: documents

A document is a tree of values: null, booleans, numbers, strings, arrays, and objects whose
members keep the order in which they were inserted. The tree itself does not force the keys of
an object to differ; `Value.WellFormed` says that they do at every level, and every operation of
the library that builds a value keeps it so.

`Value.children` are the direct children of a container in their natural order, `Value.depth` is
the number of containers nested in each other, and `Value.reset` empties a value of any kind.
-/

set_option autoImplicit false

namespace JsonDoc

open Number

/-- A value of a document. -/
inductive Value where
  | null
  | bool (b : Bool)
  | number (x : Binary64)
  | string (s : String)
  | array (items : List Value)
  | object (members : List (String × Value))
  deriving Inhabited

namespace Value

/-- The kind of the value. -/
def kind : Value → Kind
  | null => .null
  | bool _ => .bool
  | number _ => .number
  | string _ => .string
  | array _ => .array
  | object _ => .object

/-- The direct children of a container in their natural order; a scalar has none. -/
def children : Value → List Value
  | array items => items
  | object members => Members.values members
  | _ => []

/-- The value emptied: false, zero, the empty string, or a container without children. -/
def reset : Value → Value
  | null => null
  | bool _ => bool false
  | number _ => number .zero
  | string _ => string ""
  | array _ => array []
  | object _ => object []

mutual

/-- How many containers are nested in each other; a scalar has depth zero. -/
def depth : Value → Nat
  | array items => deepestItem 0 items + 1
  | object members => deepestMember 0 members + 1
  | _ => 0

/-- The greatest depth among the items, or `most` if that is greater. -/
def deepestItem (most : Nat) : List Value → Nat
  | [] => most
  | item :: rest => deepestItem (max most item.depth) rest

/-- The greatest depth among the members, or `most` if that is greater. -/
def deepestMember (most : Nat) : List (String × Value) → Nat
  | [] => most
  | (_, item) :: rest => deepestMember (max most item.depth) rest

end

mutual

/-- The keys of every object in the value differ from each other. -/
def WellFormed : Value → Prop
  | array items => WellFormedItems items
  | object members => (Members.keys members).Nodup ∧ WellFormedMembers members
  | _ => True

/-- Every item is well formed. -/
def WellFormedItems : List Value → Prop
  | [] => True
  | item :: rest => item.WellFormed ∧ WellFormedItems rest

/-- The value of every member is well formed. -/
def WellFormedMembers : List (String × Value) → Prop
  | [] => True
  | (_, item) :: rest => item.WellFormed ∧ WellFormedMembers rest

end

/-- A scalar as text; a container as a mark of its kind. -/
def display : Value → String
  | null => "null"
  | bool b => if b then "true" else "false"
  | number x => x.plain
  | string s => s
  | array _ => "[array]"
  | object _ => "[object]"

/-- The number nearest to an integer. -/
def ofInt (n : Int) : Value := number (.ofInt n)

end Value

end JsonDoc
