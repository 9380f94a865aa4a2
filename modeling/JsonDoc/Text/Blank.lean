import JsonDoc.Text.CodePoints

/-!
# `JsonDoc.Text.Blank`: white space around a text

The characters of the Unicode property White_Space, and `trim`, which drops them from both ends.
The zero-width space U+200B and the byte order mark U+FEFF are not white space.
-/

set_option autoImplicit false

namespace JsonDoc.Text

/-- The property White_Space. -/
def blankRanges : CodePoints := [
  (0x9, 0xD), (0x20, 0x20), (0x85, 0x85), (0xA0, 0xA0), (0x1680, 0x1680), (0x2000, 0x200A),
  (0x2028, 0x2029), (0x202F, 0x202F), (0x205F, 0x205F), (0x3000, 0x3000)
]

/-- Whether `c` is white space. -/
def isBlank (c : Char) : Bool := blankRanges.has c

/-- The text without the white space at its end. -/
def trimmedEnd (cs : List Char) : List Char := (cs.reverse.dropWhile isBlank).reverse

/-- The text without the white space at its start and end. -/
def trimmed (cs : List Char) : List Char := trimmedEnd (cs.dropWhile isBlank)

/-- The string without the white space at its start and end. -/
def trim (s : String) : String := String.ofList (trimmed s.toList)

end JsonDoc.Text
