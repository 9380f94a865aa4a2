import JsonDoc.Value.Basic

/-!
# `JsonDoc.Value.Items`: operations on arrays

An array is the list of its items, counted from zero. Reading outside it gives nothing;
replacing or removing an item outside it is an `OutOfBounds`, which carries the index asked for,
in the 64-bit signed reading, and the length.
-/

set_option autoImplicit false

namespace JsonDoc

/-- An index outside an array, and the length of that array. -/
structure OutOfBounds where
  index : Int
  length : Nat
  deriving DecidableEq, Repr

namespace Items

/-- The failure at `index`; an index of 64 bits is reported as a signed number. -/
def outOfBounds (items : List Value) (index : Nat) : OutOfBounds :=
  ⟨(index : Int).bmod (2 ^ 64), items.length⟩

/-- The item at `index` and the array with `value` in its place. -/
def replace (items : List Value) (index : Nat) (value : Value) :
    Except OutOfBounds (Value × List Value) :=
  match items[index]? with
  | some old => .ok (old, items.set index value)
  | none => .error (outOfBounds items index)

/-- The item at `index` and the array without it; later items move one place to the front. -/
def remove (items : List Value) (index : Nat) : Except OutOfBounds (Value × List Value) :=
  match items[index]? with
  | some old => .ok (old, items.eraseIdx index)
  | none => .error (outOfBounds items index)

end Items

end JsonDoc
