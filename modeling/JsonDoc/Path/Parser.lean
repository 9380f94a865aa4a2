import JsonDoc.Number.Decimal
import JsonDoc.Path.Basic
import JsonDoc.Path.Fault
import JsonDoc.Text.Utf8

/-!
# `JsonDoc.Path.Parser`: reading paths

`Path.compile` reads the text of a path:

    path      := empty | '$' segment*
    segment   := '.' (name | '*') | '..' (name | '*' | bracket) | bracket
    bracket   := '[' ('*' | integer | quoted | '?(' condition ')') ']'
    condition := conjunction ('||' conjunction)*
    conjunction := term ('&&' term)*
    term      := '(' condition ')' | '@' ('.' name)* (comparison literal)?

with blanks allowed inside brackets and around the parts of a condition. Each reader takes the
text from some place on and gives what it read and the rest, or a `Stop`: what was expected, and
the rest of the text at the place where it was.

A condition is read with a budget of connectives (`maxConditionHeight`). Each connective and
each pair of parentheses spends one, for itself and for everything to its right or inside it;
the budget is what the recursion goes by.
-/

set_option autoImplicit false

namespace JsonDoc

open Number

namespace Path

/-- The budget of connectives and parentheses of one condition. -/
def maxConditionHeight : Nat := 100

/-- Where reading stopped: what was expected, and the text from there on. -/
structure Stop where
  expected : Expectation
  rest : List Char
  deriving DecidableEq, Repr

/-- A blank inside a path. -/
def isSpace (c : Char) : Bool := c == ' ' || c == '\t' || c == '\r' || c == '\n'

/-- The text without the blanks at its front. -/
def skipSpaces (cs : List Char) : List Char := cs.dropWhile isSpace

/-- The text after the character `c`, which must be its first. -/
def expectChar (c : Char) (expected : Expectation) (cs : List Char) : Except Stop (List Char) :=
  match cs with
  | d :: rest => if d = c then .ok rest else .error ⟨expected, d :: rest⟩
  | [] => .error ⟨expected, []⟩

/-- Repeats a reader until it gives nothing, at most `count` times. -/
def readMany {α : Type} (step : List Char → Except Stop (Option (α × List Char))) :
    (count : Nat) → List Char → Except Stop (List α × List Char)
  | 0, cs => .ok ([], cs)
  | count + 1, cs => do
    match ← step cs with
    | none => pure ([], cs)
    | some (a, rest) =>
      let (as, rest) ← readMany step count rest
      pure (a :: as, rest)

/-! ### Names, strings and integers -/

/-- A name of one character or more. -/
def readName (expected : Expectation) (cs : List Char) : Except Stop (String × List Char) :=
  let (name, rest) := cs.span isNameChar
  if name.isEmpty then .error ⟨expected, cs⟩ else .ok (String.ofList name, rest)

/-- The value of a hexadecimal digit of either case. -/
def hexDigit? (c : Char) : Option Nat :=
  if '0' ≤ c ∧ c ≤ '9' then some (c.toNat - '0'.toNat)
  else if 'a' ≤ c ∧ c ≤ 'f' then some (c.toNat - 'a'.toNat + 10)
  else if 'A' ≤ c ∧ c ≤ 'F' then some (c.toNat - 'A'.toNat + 10)
  else none

/-- The character whose code point four hexadecimal digits give; surrogates are not characters. -/
def hexChar? (a b c d : Char) : Option Char := do
  let n := 4096 * (← hexDigit? a) + 256 * (← hexDigit? b) + 16 * (← hexDigit? c) + (← hexDigit? d)
  if n.isValidChar then some (Char.ofNat n) else none

/-- The character that a letter after a backslash stands for. -/
def escaped? (c : Char) : Option Char :=
  match c with
  | '\\' => some '\\'
  | '\'' => some '\''
  | '"' => some '"'
  | '/' => some '/'
  | 'n' => some '\n'
  | 'r' => some '\r'
  | 't' => some '\t'
  | 'b' => some '\x08'
  | 'f' => some '\x0c'
  | _ => none

/-- The rest of a quoted string, after its first quote; `content` is what was read of it, last
character first. -/
def readQuoted (quote : Char) (content : List Char) : List Char → Except Stop (String × List Char)
  | [] => .error ⟨.closingQuote, []⟩
  | '\\' :: rest =>
    -- A faulty escape is reported at the character after its backslash.
    match rest with
    | 'u' :: a :: b :: c :: d :: more =>
      match hexChar? a b c d with
      | some e => readQuoted quote (e :: content) more
      | none => .error ⟨.escape, rest⟩
    | e :: more =>
      match escaped? e with
      | some e => readQuoted quote (e :: content) more
      | none => .error ⟨.escape, rest⟩
    | [] => .error ⟨.escape, []⟩
  | c :: rest =>
    if c = quote then .ok (String.ofList content.reverse, rest)
    else readQuoted quote (c :: content) rest

/-- An integer of 64 bits with an optional sign. -/
def readIndex? (cs : List Char) : Option (Int × List Char) :=
  let (negative, cs) := readSign cs
  let (digits, rest) := cs.span Char.isDigit
  let size : Int := natOfDigits digits
  let n := if negative then -size else size
  if !digits.isEmpty && -(2 ^ 63 : Int) ≤ n && n < 2 ^ 63 then some (n, rest) else none

/-! ### Conditions -/

/-- A comparison at the front of the text. -/
def readComparison? : List Char → Option (Comparison × List Char)
  | '=' :: '=' :: rest => some (.eq, rest)
  | '!' :: '=' :: rest => some (.ne, rest)
  | '<' :: '=' :: rest => some (.le, rest)
  | '<' :: rest => some (.lt, rest)
  | '>' :: '=' :: rest => some (.ge, rest)
  | '>' :: rest => some (.gt, rest)
  | _ => none

/-- A number: a decimal numeral, or the name of not-a-number or of infinity in letters of either
case. -/
def readNumber? (cs : List Char) : Option (Binary64 × List Char) :=
  match Decimal.read? cs with
  | some (d, rest) => some (d.toBinary64, rest)
  | none =>
    -- The names take no sign.
    match cs with
    | a :: b :: c :: rest =>
      match [a.toLower, b.toLower, c.toLower] with
      | ['n', 'a', 'n'] => some (.nan, rest)
      | ['i', 'n', 'f'] => some (.infinite false, rest)
      | _ => none
    | _ => none

/-- A literal. -/
def readLiteral (cs : List Char) : Except Stop (Literal × List Char) :=
  match cs with
  | 'n' :: 'u' :: 'l' :: 'l' :: rest => .ok (.null, rest)
  | 't' :: 'r' :: 'u' :: 'e' :: rest => .ok (.bool true, rest)
  | 'f' :: 'a' :: 'l' :: 's' :: 'e' :: rest => .ok (.bool false, rest)
  | '"' :: rest => do
    let (s, rest) ← readQuoted '"' [] rest
    pure (.string s, rest)
  | '\'' :: rest => do
    let (s, rest) ← readQuoted '\'' [] rest
    pure (.string s, rest)
  | cs =>
    match readNumber? cs with
    | some (x, rest) => .ok (.number x, rest)
    | none => .error ⟨.literal, cs⟩

/-- A point and the name after it. -/
def readFieldName (cs : List Char) : Except Stop (Option (String × List Char)) :=
  match cs with
  | '.' :: rest => some <$> readName .fieldName rest
  | _ => .ok none

/-- A field, and the comparison and literal after it if there is a comparison. -/
def readTest (cs : List Char) : Except Stop (Condition × List Char) :=
  match cs with
  | '@' :: rest => do
    let (field, rest) ← readMany readFieldName rest.length rest
    match readComparison? (skipSpaces rest) with
    -- Blanks that lead to no comparison are left to what follows.
    | none => pure (.present field, rest)
    | some (op, rest) =>
      let (literal, rest) ← readLiteral (skipSpaces rest)
      pure (.compare field op literal, rest)
  | cs => .error ⟨.term, cs⟩

/-- The text after a doubled character with blanks around it, if the text goes on so. -/
def afterDoubled? (c : Char) (cs : List Char) : Option (List Char) :=
  match skipSpaces cs with
  | a :: b :: rest => if a = c ∧ b = c then some (skipSpaces rest) else none
  | _ => none

mutual

/-- A term: a test, or a condition in parentheses. -/
def readTerm : (budget : Nat) → List Char → Except Stop (Condition × List Char)
  | 0, cs =>
    match cs with
    | '(' :: rest => .error ⟨.shallower, '(' :: rest⟩
    | cs => readTest cs
  | budget + 1, cs =>
    match cs with
    | '(' :: rest => do
      let (first, rest) ← readTerm budget (skipSpaces rest)
      let (first, rest) ← readAnds budget first rest
      let (condition, rest) ← readOrs budget first rest
      let rest ← expectChar ')' .closingParen (skipSpaces rest)
      pure (condition, rest)
    | cs => readTest cs

/-- The further terms of a conjunction, joined to `left`. -/
def readAnds : (budget : Nat) → (left : Condition) → List Char → Except Stop (Condition × List Char)
  | 0, left, cs =>
    match afterDoubled? '&' cs with
    | none => .ok (left, cs)
    | some rest => .error ⟨.shallower, rest⟩
  | budget + 1, left, cs =>
    match afterDoubled? '&' cs with
    | none => .ok (left, cs)
    | some rest => do
      let (right, rest) ← readTerm budget rest
      readAnds budget (.and left right) rest

/-- The further conjunctions of a condition, joined to `left`. -/
def readOrs : (budget : Nat) → (left : Condition) → List Char → Except Stop (Condition × List Char)
  | 0, left, cs =>
    match afterDoubled? '|' cs with
    | none => .ok (left, cs)
    | some rest => .error ⟨.shallower, rest⟩
  | budget + 1, left, cs =>
    match afterDoubled? '|' cs with
    | none => .ok (left, cs)
    | some rest => do
      let (right, rest) ← readTerm budget rest
      let (right, rest) ← readAnds budget right rest
      readOrs budget (.or left right) rest

end

/-- A condition within the budget. -/
def readCondition (budget : Nat) (cs : List Char) : Except Stop (Condition × List Char) := do
  let (first, rest) ← readTerm budget cs
  let (first, rest) ← readAnds budget first rest
  readOrs budget first rest

/-! ### Segments -/

/-- The rest of a filter, after its question mark. -/
def readFilter (cs : List Char) : Except Stop (Segment × List Char) := do
  let rest ← expectChar '(' .openingParen cs
  let (condition, rest) ← readCondition maxConditionHeight (skipSpaces rest)
  let rest ← expectChar ')' .closingFilter (skipSpaces rest)
  pure (.filter condition, rest)

/-- What stands in brackets. -/
def readSelector (cs : List Char) : Except Stop (Segment × List Char) :=
  match cs with
  | '*' :: rest => .ok (.wildcard, rest)
  | '?' :: rest => readFilter rest
  | '"' :: rest => do
    let (name, rest) ← readQuoted '"' [] rest
    pure (.property name, rest)
  | '\'' :: rest => do
    let (name, rest) ← readQuoted '\'' [] rest
    pure (.property name, rest)
  | cs =>
    match readIndex? cs with
    | some (i, rest) => .ok (.index i, rest)
    | none => .error ⟨.index, cs⟩

/-- The rest of a bracket, after it is opened. -/
def readBracket (cs : List Char) : Except Stop (Segment × List Char) := do
  let (segment, rest) ← readSelector (skipSpaces cs)
  let rest ← expectChar ']' .closingBracket (skipSpaces rest)
  pure (segment, rest)

/-- What follows a point or a descent: a wildcard or a name. -/
def readMember (expected : Expectation) (cs : List Char) : Except Stop (Segment × List Char) :=
  match cs with
  | '*' :: rest => .ok (.wildcard, rest)
  | cs => do
    let (name, rest) ← readName expected cs
    pure (.property name, rest)

/-- The segments that the next piece of a path stands for; nothing where no piece starts. -/
def readSegment (cs : List Char) : Except Stop (Option (List Segment × List Char)) :=
  match cs with
  | '.' :: '.' :: '[' :: rest => do
    let (segment, rest) ← readBracket rest
    pure (some ([.descent, segment], rest))
  | '.' :: '.' :: rest => do
    let (segment, rest) ← readMember .descendant rest
    pure (some ([.descent, segment], rest))
  | '.' :: rest => do
    let (segment, rest) ← readMember .member rest
    pure (some ([segment], rest))
  | '[' :: rest => do
    let (segment, rest) ← readBracket rest
    pure (some ([segment], rest))
  | _ => .ok none

/-- The segments of a whole path. -/
def readPath (cs : List Char) : Except Stop (List Segment) :=
  match cs with
  | [] => .ok []
  | '$' :: rest => do
    let (pieces, rest) ← readMany readSegment rest.length rest
    -- Pieces are read as long as one starts, so nothing may be left.
    match rest with
    | [] => pure pieces.flatten
    | rest => throw ⟨.noMore, rest⟩
  | cs => .error ⟨.root, cs⟩

/-- The stop as a fault of the whole text. -/
def Stop.fault (text : List Char) (stop : Stop) : Fault where
  position := Text.encodedLength text - Text.encodedLength stop.rest
  token := String.ofList (tokenOf stop.rest)
  expected := stop.expected

/-- The path that a text stands for. -/
def compile (text : String) : Except Fault Path :=
  match readPath text.toList with
  | .ok segments => .ok ⟨text, segments⟩
  | .error stop => .error (stop.fault text.toList)

end Path

end JsonDoc
