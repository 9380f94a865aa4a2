import JsonDoc.Text.Alphanumeric

/-!
# `JsonDoc.Path.Name`: names that need no quotes

A member name that consists of letters, numbers, underscores and hyphens can stand after a point
in a path; every other name is quoted.
-/

set_option autoImplicit false

namespace JsonDoc.Path

/-- A character of a name that needs no quotes. -/
def isNameChar (c : Char) : Bool := Text.isAlphanumeric c || c == '_' || c == '-'

/-- Whether the name needs no quotes. -/
def isName (name : List Char) : Bool := !name.isEmpty && name.all isNameChar

end JsonDoc.Path
