import JsonDoc.Error
import JsonDoc.Json.Document

/-!
# `JsonDoc.Json.Writer`: writing JSON texts

`Json.text` writes generic JSON on one line. `Value.write` writes a document, on one line or
with every part on a line of its own: an integer of at most `maxSafeInteger` in digits, any
other finite number in `jsonStyle`, and a number that is not finite as null. `Value.serialize`
adds the choices of `WriteOptions`: a limit on the depth, members in the order of their keys,
and escapes for the characters that HTML gives a meaning.
-/

set_option autoImplicit false

namespace JsonDoc

open Number

namespace Json

/-- How the parts of a text are set out. -/
inductive Layout where
  /-- On one line, without white space. -/
  | compact
  /-- Each part on its own line, indented once per level by the given text. -/
  | pretty (indent : String)
  deriving DecidableEq, Repr

/-- Writes `count` copies of `s` behind `out`. -/
def repeated (s : String) (out : String) : (count : Nat) → String
  | 0 => out
  | count + 1 => repeated s (out ++ s) count

/-- Writes the start of a new line at the given level behind `out`. -/
def Layout.newLine (layout : Layout) (level : Nat) (out : String) : String :=
  match layout with
  | compact => out
  | pretty indent => repeated indent (out ++ "\n") level

/-- What stands between a key and its value. -/
def Layout.colon : Layout → String
  | compact => ":"
  | pretty _ => ": "

/-- How one character is written in a string. -/
def stringChar (c : Char) : List Char :=
  match c with
  | '"' => ['\\', '"']
  | '\\' => ['\\', '\\']
  | '\x08' => ['\\', 'b']
  | '\x0c' => ['\\', 'f']
  | '\n' => ['\\', 'n']
  | '\r' => ['\\', 'r']
  | '\t' => ['\\', 't']
  | c => if c.toNat < 0x20 then ['\\', 'u'] ++ Path.hexFour c.toNat else [c]

/-- A string between quotes. -/
def stringText (s : String) : String :=
  String.ofList (['"'] ++ s.toList.flatMap stringChar ++ ['"'])

/-- A number of generic JSON. -/
def numeralText : Numeral → String
  | .integer n => String.ofList (integerText n)
  | .float x => x.json

mutual

/-- Generic JSON on one line. -/
def text : Json → String
  | null => "null"
  | bool b => if b then "true" else "false"
  | number n => numeralText n
  | string s => stringText s
  | array items => "[" ++ ",".intercalate (itemTexts items) ++ "]"
  | object members => "\x7b" ++ ",".intercalate (memberTexts members) ++ "\x7d"

/-- The texts of the items of an array. -/
def itemTexts : List Json → List String
  | [] => []
  | item :: rest => text item :: itemTexts rest

/-- The texts of the members of an object, each with its key. -/
def memberTexts : List (String × Json) → List String
  | [] => []
  | (key, item) :: rest => (stringText key ++ ":" ++ text item) :: memberTexts rest

end

end Json

/-- The choices for writing a document. -/
structure WriteOptions where
  /-- Everything on one line, whatever the indent. -/
  compact : Bool := true
  /-- The indent of a level where parts have lines of their own. -/
  indent : String := "  "
  /-- Members in the order of their keys instead of that of their insertion. -/
  sortKeys : Bool := false
  /-- How deep containers may be nested. -/
  maxDepth : Nat := defaultMaxDepth
  /-- Escapes for the characters that HTML and scripts give a meaning. -/
  htmlEscape : Bool := false
  deriving DecidableEq, Repr

/-- The usual choices, with parts on lines of their own. -/
def WriteOptions.pretty (indent : String) : WriteOptions := { compact := false, indent := indent }

/-- The layout that the choices ask for. -/
def WriteOptions.layout (options : WriteOptions) : Json.Layout :=
  if options.compact then .compact else .pretty options.indent

/-- A character of a finished text, escaped if HTML or a script would give it a meaning. -/
def htmlChar (c : Char) : List Char :=
  match c with
  | '<' => ['\\', 'u', '0', '0', '3', 'c']
  | '>' => ['\\', 'u', '0', '0', '3', 'e']
  | '&' => ['\\', 'u', '0', '0', '2', '6']
  | '\u2028' => ['\\', 'u', '2', '0', '2', '8']
  | '\u2029' => ['\\', 'u', '2', '0', '2', '9']
  | c => [c]

/-- A finished text with the escapes of `htmlChar`. -/
def escapeHtml (text : String) : String := String.ofList (text.toList.flatMap htmlChar)

/-- A number of a document: null if it is not finite, digits if it is an integer of at most
`maxSafeInteger`, else the shortest text. -/
def numberText (x : Binary64) : String :=
  if !x.isFinite then "null"
  else
    match safeInteger? x with
    | some n => String.ofList (integerText n)
    | none => x.json

namespace Value

open Json

mutual

/-- Writes a document behind `out`; `level` is how deep it is nested. -/
def write (layout : Layout) (level : Nat) (out : String) : Value → String
  | null => out ++ "null"
  | bool b => out ++ (if b then "true" else "false")
  | number x => out ++ numberText x
  | string s => out ++ stringText s
  | array [] => out ++ "[]"
  | array items =>
    layout.newLine level (writeItems layout (level + 1) "" (out ++ "[") items) ++ "]"
  | object [] => out ++ "\x7b\x7d"
  | object members =>
    layout.newLine level (writeMembers layout (level + 1) "" (out ++ "\x7b") members) ++ "\x7d"

/-- Writes the items of an array behind `out`, the first after `separator` and the others after
commas. -/
def writeItems (layout : Layout) (level : Nat) (separator out : String) : List Value → String
  | [] => out
  | item :: rest =>
    writeItems layout level ","
      (write layout level (layout.newLine level (out ++ separator)) item) rest

/-- Writes the members of an object behind `out`, the first after `separator` and the others after
commas. -/
def writeMembers (layout : Layout) (level : Nat) (separator out : String) :
    List (String × Value) → String
  | [] => out
  | (key, item) :: rest =>
    writeMembers layout level ","
      (write layout level
        (layout.newLine level (out ++ separator) ++ stringText key ++ layout.colon) item) rest

end

/-- A document on one line, whatever its depth. -/
def text (v : Value) : String := write .compact 0 "" v

mutual

/-- The document with the members of every object in the order of their keys. -/
def sorted : Value → Value
  | array items => array (sortedItems items)
  | object members =>
    object ((sortedMembers members).mergeSort fun a b => decide (a.1 ≤ b.1))
  | v => v

/-- The items, each with its members in order. -/
def sortedItems : List Value → List Value
  | [] => []
  | item :: rest => sorted item :: sortedItems rest

/-- The members in the order given, the value of each with its own members in order. -/
def sortedMembers : List (String × Value) → List (String × Value)
  | [] => []
  | (key, item) :: rest => (key, sorted item) :: sortedMembers rest

end

/-- The text of a document by the choices given; there is none for a document that is too deep. -/
def serialize (options : WriteOptions) (v : Value) : Except Error String :=
  if options.maxDepth < v.depth then .error (.tooDeep options.maxDepth)
  else
    -- The escapes apply to the finished text, the indent included.
    let ordered := if options.sortKeys then v.sorted else v
    let text := ordered.write options.layout 0 ""
    .ok (if options.htmlEscape then escapeHtml text else text)

end Value

end JsonDoc
