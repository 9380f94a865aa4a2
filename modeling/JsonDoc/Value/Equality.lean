import JsonDoc.Value.Basic

/-!
# `JsonDoc.Value.Equality`: equality of documents

`==` compares values: numbers as numbers, so that the zeros are equal and not-a-number differs
from itself; arrays item by item; objects without regard to the order of their members, as two
objects with equally many members of which each of the first is found in the second with an
equal value.
-/

set_option autoImplicit false

namespace JsonDoc

namespace Value

mutual

/-- Equality of values. -/
def equals : Value → Value → Bool
  | null, null => true
  | bool a, bool b => a == b
  | number x, number y => x.equals y
  | string s, string t => s == t
  | array items, array others => equalItems items others
  | object members, object others =>
    members.length == others.length && includedMembers members others
  | _, _ => false

/-- Equality of items, one by one. -/
def equalItems : List Value → List Value → Bool
  | [], [] => true
  | item :: rest, other :: others => item.equals other && equalItems rest others
  | _, _ => false

/-- Every member is found among the others, with an equal value. -/
def includedMembers : List (String × Value) → List (String × Value) → Bool
  | [], _ => true
  | (key, item) :: rest, others =>
    (match Members.get? others key with
      | some other => item.equals other
      | none => false) && includedMembers rest others

end

instance : BEq Value := ⟨equals⟩

end Value

end JsonDoc
