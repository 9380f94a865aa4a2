import JsonDoc.Number.Written
import JsonDoc.Path.Basic
import JsonDoc.Path.Name

/-!
# `JsonDoc.Path.Printer`: the normal text of a path

Every list of segments has one normal text. Names that need no quotes follow a point, other
names stand in brackets and single quotes, wildcards are always in brackets, and a combined
condition is always in parentheses. The two points of a descent serve as the point of a name
that follows, and `Path.normalize` is the text that results for a path.
-/

set_option autoImplicit false

namespace JsonDoc

open Number

namespace Path

/-- The number `n` in four hexadecimal digits of lower case. -/
def hexFour (n : Nat) : List Char :=
  let digits := Nat.toDigits 16 n
  List.replicate (4 - digits.length) '0' ++ digits

/-- Whether `c` is a control character: below the space, or from U+007F to U+009F. -/
def isControl (c : Char) : Bool := c.toNat < 0x20 || (0x7F ≤ c.toNat && c.toNat ≤ 0x9F)

/-- One character between single quotes. -/
def quotedChar (c : Char) : List Char :=
  match c with
  | '\'' => ['\\', '\'']
  | '\\' => ['\\', '\\']
  | '\n' => ['\\', 'n']
  | '\r' => ['\\', 'r']
  | '\t' => ['\\', 't']
  | c => if isControl c then ['\\', 'u'] ++ hexFour c.toNat else [c]

/-- A text between single quotes. -/
def quotedText (s : String) : List Char := ['\''] ++ s.toList.flatMap quotedChar ++ ['\'']

end Path

/-- The text of a comparison. -/
def Comparison.text : Comparison → List Char
  | eq => ['=', '=']
  | ne => ['!', '=']
  | lt => ['<']
  | le => ['<', '=']
  | gt => ['>']
  | ge => ['>', '=']

/-- The text of a literal. -/
def Literal.text : Literal → List Char
  | null => ['n', 'u', 'l', 'l']
  | bool true => ['t', 'r', 'u', 'e']
  | bool false => ['f', 'a', 'l', 's', 'e']
  | number x => x.text plainStyle
  | string s => Path.quotedText s

/-- The text of a field: the candidate, and each name after a point. -/
def Field.text (field : Field) : List Char := '@' :: field.flatMap fun name => '.' :: name.toList

/-- The text of a condition; a combined one is in parentheses. -/
def Condition.text : Condition → List Char
  | compare field op literal => Field.text field ++ [' '] ++ op.text ++ [' '] ++ literal.text
  | present field => Field.text field
  | and left right => ['('] ++ left.text ++ [' ', '&', '&', ' '] ++ right.text ++ [')']
  | or left right => ['('] ++ left.text ++ [' ', '|', '|', ' '] ++ right.text ++ [')']

/-- The text of a segment on its own. -/
def Segment.text : Segment → List Char
  | property name =>
    if Path.isName name.toList then '.' :: name.toList else ['['] ++ Path.quotedText name ++ [']']
  | index i => ['['] ++ integerText i ++ [']']
  | wildcard => ['[', '*', ']']
  | descent => ['.', '.']
  | filter condition => ['[', '?', '('] ++ condition.text ++ [')', ']']

/-- The text of a segment, given whether it stands right after a descent. -/
def Segment.textAfter (afterDescent : Bool) (segment : Segment) : List Char :=
  match segment with
  | property name =>
    if afterDescent && Path.isName name.toList then name.toList else segment.text
  | _ => segment.text

/-- The text of a list of segments, given whether it stands right after a descent. -/
def Segment.listText (afterDescent : Bool) : List Segment → List Char
  | [] => []
  | segment :: rest =>
    segment.textAfter afterDescent ++ listText (decide (segment = descent)) rest

namespace Path

/-- The normal text of a list of segments, from the root on. -/
def textOf (segments : List Segment) : String :=
  String.ofList ('$' :: Segment.listText false segments)

/-- The normal text of the path. -/
def normalize (path : Path) : String := textOf path.segments

end Path

end JsonDoc
