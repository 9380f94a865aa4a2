/-!
# `JsonDoc.Text.CodePoints`: sets of characters as ranges of code points

A `CodePoints` is a list of inclusive ranges; `CodePoints.has` asks whether a character's code
point lies in one of them. The tables of the Unicode properties that the library needs are
values of this type.
-/

set_option autoImplicit false

namespace JsonDoc.Text

/-- A set of characters, as inclusive ranges of code points. -/
abbrev CodePoints := List (Nat × Nat)

/-- The code point of `c` lies in one of the ranges. -/
def CodePoints.has (set : CodePoints) (c : Char) : Bool :=
  set.any fun range => range.1 ≤ c.toNat && c.toNat ≤ range.2

end JsonDoc.Text
