import JsonDoc.Json.Numeral
import JsonDoc.Text.Utf8

/-!
# `JsonDoc.Json.Reader`: reading JSON texts

`readText` reads a JSON text from its bytes. What it makes of it is left to a `Builder`, so that
one reader serves documents (`JsonDoc.Json.Document`), generic JSON and anything else that can
be built from the parts of a text.

Containers may be nested to a limit that the caller gives, and never deeper than `nestingLimit`.
Bytes need only be valid UTF-8 inside strings, where it is checked at the closing quote;
elsewhere every byte that is not ASCII is out of place.

Every reader takes the bytes from some place on and gives what it read and the rest, or a `Stop`
with the bytes after the place where it stopped. An error about the next byte has that byte
before its place.
-/

set_option autoImplicit false

namespace JsonDoc.Json

open Number

/-- How the parts of a text are put together. -/
structure Builder (α : Type) where
  null : α
  bool : Bool → α
  number : Numeral → α
  string : String → α
  array : List α → α
  object : List (String × α) → α

/-- How deep containers may be nested, whatever the limit asked for. -/
def nestingLimit : Nat := 127

/-- White space between the parts of a text. -/
def isSpace (c : UInt8) : Bool := c == 0x20 || c == 0x0A || c == 0x0D || c == 0x09

/-- The bytes without the white space at their front. -/
def skipSpace (cs : List UInt8) : List UInt8 := cs.dropWhile isSpace

/-! ### Words and strings -/

/-- The rest of a word whose first letter was read. -/
def readWord : (word : List UInt8) → List UInt8 → Except Stop (List UInt8)
  | [], cs => .ok cs
  | _ :: _, [] => .error ⟨.endInValue, [], 0⟩
  | w :: word, c :: rest => if c = w then readWord word rest else .error ⟨.noWord, rest, 0⟩

/-- The value of a hexadecimal digit of either case. -/
def hexDigit? (c : UInt8) : Option Nat :=
  if 0x30 ≤ c && c ≤ 0x39 then some (c.toNat - 0x30)
  else if 0x61 ≤ c && c ≤ 0x66 then some (c.toNat - 0x61 + 10)
  else if 0x41 ≤ c && c ≤ 0x46 then some (c.toNat - 0x41 + 10)
  else none

/-- The value of four hexadecimal digits. -/
def hexFour? (a b c d : UInt8) : Option Nat := do
  pure (4096 * (← hexDigit? a) + 256 * (← hexDigit? b) + 16 * (← hexDigit? c) + (← hexDigit? d))

/-- The code unit leads a pair of surrogates. -/
def isLead (n : Nat) : Bool := 0xD800 ≤ n && n ≤ 0xDBFF

/-- The code unit trails a pair of surrogates. -/
def isTrail (n : Nat) : Bool := 0xDC00 ≤ n && n ≤ 0xDFFF

/-- The code point of a pair of surrogates. -/
def pairCodePoint (lead trail : Nat) : Nat := 0x10000 + (lead - 0xD800) * 0x400 + (trail - 0xDC00)

/-- The bytes of the character with the given code point, last first. -/
def reversedBytes (codePoint : Nat) : List UInt8 :=
  (String.utf8EncodeChar (Char.ofNat codePoint)).reverse

/-- The byte that a letter after a backslash stands for. -/
def escaped? (c : UInt8) : Option UInt8 :=
  match c with
  | 0x22 => some 0x22
  | 0x5C => some 0x5C
  | 0x2F => some 0x2F
  | 0x62 => some 0x08
  | 0x66 => some 0x0C
  | 0x6E => some 0x0A
  | 0x72 => some 0x0D
  | 0x74 => some 0x09
  | _ => none

/-- The bytes of a string after its first quote; `content` is what was read of it, last byte
first. -/
def readContent (content : List UInt8) : List UInt8 → Except Stop (List UInt8 × List UInt8)
  | [] => .error ⟨.endInString, [], 0⟩
  | 0x22 :: rest => .ok (content.reverse, rest)
  | 0x5C :: rest =>
    match rest with
    | [] => .error ⟨.endInString, [], 0⟩
    | 0x75 :: a :: b :: c :: d :: rest =>
      match hexFour? a b c d with
      | none => .error ⟨.malformedEscape, rest, 0⟩
      | some unit =>
        if isTrail unit then .error ⟨.trailSurrogateFirst, rest, 0⟩
        else if isLead unit then
          -- The trail of the pair has to follow at once, as an escape of its own.
          match rest with
          | 0x5C :: 0x75 :: a :: b :: c :: d :: rest =>
            match hexFour? a b c d with
            | none => .error ⟨.malformedEscape, rest, 0⟩
            | some trail =>
              if isTrail trail then
                readContent (reversedBytes (pairCodePoint unit trail) ++ content) rest
              else .error ⟨.trailSurrogateFirst, rest, 0⟩
          | 0x5C :: 0x75 :: _ => .error ⟨.endInString, [], 0⟩
          | [0x5C] => .error ⟨.endInString, [], 0⟩
          | 0x5C :: _ :: rest => .error ⟨.noTrailSurrogate, rest, 0⟩
          | [] => .error ⟨.endInString, [], 0⟩
          | _ :: rest => .error ⟨.noTrailSurrogate, rest, 0⟩
        else readContent (reversedBytes unit ++ content) rest
    | 0x75 :: _ => .error ⟨.endInString, [], 0⟩
    | c :: rest =>
      match escaped? c with
      | some byte => readContent (byte :: content) rest
      | none => .error ⟨.malformedEscape, rest, 0⟩
  | c :: rest =>
    if c < 0x20 then .error ⟨.controlCharacter, rest, 0⟩ else readContent (c :: content) rest

/-- A string, after its first quote. Where its bytes are not valid UTF-8, the column is set back
to the end of the valid ones. -/
def readString (cs : List UInt8) : Except Stop (String × List UInt8) := do
  let (content, rest) ← readContent [] cs
  let bytes : ByteArray := ⟨content.toArray⟩
  match String.fromUTF8? bytes with
  | some s => pure (s, rest)
  | none => throw ⟨.malformedCharacter, rest, bytes.size - Text.validPrefixLength bytes⟩

/-! ### Containers -/

/-- The bytes and causes of a kind of container. -/
structure Brackets where
  close : UInt8
  atEnd : Cause
  noSeparator : Cause

/-- The brackets of arrays. -/
def arrayBrackets : Brackets := ⟨0x5D, .endInArray, .noArraySeparator⟩

/-- The brackets of objects. -/
def objectBrackets : Brackets := ⟨0x7D, .endInObject, .noObjectSeparator⟩

/-- The parts of a container after its first part. A part takes a byte or more, so that `count`
is enough if it is the number of bytes. -/
def readMore {α : Type} (brackets : Brackets) (part : List UInt8 → Except Stop (α × List UInt8)) :
    (count : Nat) → List UInt8 → Except Stop (List α × List UInt8)
  | 0, _ => .error ⟨brackets.atEnd, [], 0⟩
  | count + 1, cs =>
    match skipSpace cs with
    | [] => .error ⟨brackets.atEnd, [], 0⟩
    | c :: rest =>
      if c = brackets.close then .ok ([], rest)
      else if c = 0x2C then
        match skipSpace rest with
        | [] => .error ⟨.endInValue, [], 0⟩
        | c :: rest =>
          if c = brackets.close then .error ⟨.trailingComma, rest, 0⟩
          else do
            let (first, rest) ← part (c :: rest)
            let (others, rest) ← readMore brackets part count rest
            pure (first :: others, rest)
      else .error ⟨brackets.noSeparator, rest, 0⟩

/-- The parts of a container, after it is opened. -/
def readParts {α : Type} (brackets : Brackets) (part : List UInt8 → Except Stop (α × List UInt8))
    (count : Nat) (cs : List UInt8) : Except Stop (List α × List UInt8) :=
  match skipSpace cs with
  | [] => .error ⟨brackets.atEnd, [], 0⟩
  | c :: rest =>
    if c = brackets.close then .ok ([], rest)
    else do
      let (first, rest) ← part (c :: rest)
      let (others, rest) ← readMore brackets part count rest
      pure (first :: others, rest)

/-- A member: a key, a colon and a value. -/
def readMember {α : Type} (value : List UInt8 → Except Stop (α × List UInt8)) (cs : List UInt8) :
    Except Stop ((String × α) × List UInt8) :=
  match cs with
  | 0x22 :: rest => do
    let (key, rest) ← readString rest
    match skipSpace rest with
    | [] => throw ⟨.endInObject, [], 0⟩
    | 0x3A :: rest => do
      let (item, rest) ← value rest
      pure ((key, item), rest)
    | _ :: rest => throw ⟨.noColon, rest, 0⟩
  | [] => .error ⟨.endInObject, [], 0⟩
  | _ :: rest => .error ⟨.noKey, rest, 0⟩

/-- The place where an array that is nested too deeply is reported: after its bracket, white
space, and a closing bracket or a comma with the white space behind it. -/
def afterDeepArray (cs : List UInt8) : List UInt8 :=
  match skipSpace cs with
  | 0x5D :: rest => rest
  | 0x2C :: rest => skipSpace rest
  | rest => rest

/-- The place where an object that is nested too deeply is reported: after its brace, white
space and a closing brace. -/
def afterDeepObject (cs : List UInt8) : List UInt8 :=
  match skipSpace cs with
  | 0x7D :: rest => rest
  | rest => rest

section

variable {α : Type} (builder : Builder α)

/-- A value that is not a container, of which `c` is the first byte. -/
def readScalar (c : UInt8) (rest : List UInt8) : Except Stop (α × List UInt8) :=
  match c with
  | 0x6E => do
    let rest ← readWord [0x75, 0x6C, 0x6C] rest
    pure (builder.null, rest)
  | 0x74 => do
    let rest ← readWord [0x72, 0x75, 0x65] rest
    pure (builder.bool true, rest)
  | 0x66 => do
    let rest ← readWord [0x61, 0x6C, 0x73, 0x65] rest
    pure (builder.bool false, rest)
  | 0x22 => do
    let (s, rest) ← readString rest
    pure (builder.string s, rest)
  | 0x2D => do
    let (n, rest) ← readNumeral true rest
    pure (builder.number n, rest)
  | c =>
    if isDigit c then do
      let (n, rest) ← readNumeral false (c :: rest)
      pure (builder.number n, rest)
    else .error ⟨.noValue, rest, 0⟩

/-- A value. `budget` is how many more containers may be nested in any text, `room` how many
more the limit allows; `count` bounds the parts of a container. -/
def readValue (count limit : Nat) (budget room : Nat) (cs : List UInt8) :
    Except Stop (α × List UInt8) :=
  match skipSpace cs with
  | [] => .error ⟨.endInValue, [], 0⟩
  | 0x5B :: rest =>
    match budget, room with
    -- The nesting of any text is checked before the limit of the caller.
    | 0, _ => .error ⟨.nestedTooDeeply, rest, 0⟩
    | _ + 1, 0 => .error ⟨.tooDeep limit, afterDeepArray rest, 0⟩
    | budget + 1, room + 1 => do
      let (items, rest) ← readParts arrayBrackets (readValue count limit budget room) count rest
      pure (builder.array items, rest)
  | 0x7B :: rest =>
    match budget, room with
    | 0, _ => .error ⟨.nestedTooDeeply, rest, 0⟩
    | _ + 1, 0 => .error ⟨.tooDeep limit, afterDeepObject rest, 0⟩
    | budget + 1, room + 1 => do
      let (members, rest) ←
        readParts objectBrackets (readMember (readValue count limit budget room)) count rest
      pure (builder.object members, rest)
  | c :: rest => readScalar builder c rest

/-- The value of a whole text, and nothing but white space after it. -/
def readAll (limit : Nat) (cs : List UInt8) : Except Stop α := do
  let (value, rest) ← readValue builder cs.length limit nestingLimit limit cs
  match skipSpace rest with
  | [] => pure value
  | _ :: rest => throw ⟨.trailingText, rest, 0⟩

end

/-- The stop as a fault of the whole text. -/
def Stop.fault (text : List UInt8) (stop : Stop) : Fault :=
  let before := text.take (text.length - stop.rest.length)
  { cause := stop.cause
    line := before.count 0x0A + 1
    column := (before.reverse.takeWhile (· != 0x0A)).length - stop.setBack }

/-- The value of a text with containers nested at most `limit` deep. -/
def readText {α : Type} (builder : Builder α) (limit : Nat) (text : List UInt8) : Except Fault α :=
  match readAll builder limit text with
  | .ok value => .ok value
  | .error stop => .error (stop.fault text)

end JsonDoc.Json
