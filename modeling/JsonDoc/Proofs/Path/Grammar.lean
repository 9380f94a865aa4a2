import JsonDoc.Path.Parser
import JsonDoc.Path.Printer
import JsonDoc.Proofs.Number.Numeral

/-!
# `JsonDoc.Proofs.Path.Grammar`: the grammar of paths

The grammar of paths as relations between a text and what it stands for. They name no reader:
a text is split into parts in any way that the rules allow, and what the parts stand for is put
together.

* `PathText` is the whole text, `SegmentText` one piece of it, which stands for one segment or
  for a descent and the segment after it, and `BracketText` a piece in brackets.
* `TermText`, `ConjunctionText` and `ConditionText` are the three layers of a condition, each
  grouped to the left. Their first index is the nesting: how many parentheses and connectives
  the most deeply placed test stands behind, where a connective counts for what is to its right.
  The second index of the upper two is the number of connectives in the chain itself.
* `QuotedText`, `NameText`, `IntegerText`, `NumberText`, `LiteralText` and `FieldText` are the
  tokens.

A filter allows a nesting of at most `maxConditionHeight`.
-/

set_option autoImplicit false

namespace JsonDoc.Path.Grammar

open Number

/-- Blanks only, or nothing. -/
def Blanks (cs : List Char) : Prop := ∀ c ∈ cs, isSpace c = true

/-- Texts of one kind, one after the other, and what each of them stands for. -/
inductive SequenceText {α : Type} (item : List Char → α → Prop) : List Char → List α → Prop where
  | nil : SequenceText item [] []
  | cons {cs more : List Char} {a : α} {as : List α} : item cs a → SequenceText item more as →
      SequenceText item (cs ++ more) (a :: as)

/-- A name that needs no quotes. -/
def NameText (cs : List Char) (name : String) : Prop :=
  isName cs = true ∧ name = String.ofList cs

/-- A decimal integer of 64 bits with an optional sign. -/
inductive IntegerText : List Char → Int → Prop where
  | unsigned {ds : List Char} : Digits ds → (natOfDigits ds : Int) < 2 ^ 63 →
      IntegerText ds (natOfDigits ds)
  | plus {ds : List Char} : Digits ds → (natOfDigits ds : Int) < 2 ^ 63 →
      IntegerText ('+' :: ds) (natOfDigits ds)
  | minus {ds : List Char} : Digits ds → (natOfDigits ds : Int) ≤ 2 ^ 63 →
      IntegerText ('-' :: ds) (-(natOfDigits ds : Int))

/-- A decimal numeral, or a name of a number in letters of either case. -/
inductive NumberText : List Char → Binary64 → Prop where
  | numeral {cs : List Char} {d : Decimal} : NumeralText cs d → NumberText cs d.toBinary64
  | nan {cs : List Char} : cs.map Char.toLower = ['n', 'a', 'n'] → NumberText cs .nan
  | infinity {cs : List Char} : cs.map Char.toLower = ['i', 'n', 'f'] →
      NumberText cs (.infinite false)

/-! ### Quoted strings -/

/-- The letters of the short escapes, and the characters they stand for. -/
def escapes : List (Char × Char) := [
  ('\\', '\\'), ('\'', '\''), ('"', '"'), ('/', '/'), ('n', '\n'), ('r', '\r'), ('t', '\t'),
  ('b', '\x08'), ('f', '\x0c')
]

/-- Four hexadecimal digits that give the code point of a character. -/
def CodeText (a b c d e : Char) : Prop :=
  ∃ i j k l, hexDigit? a = some i ∧ hexDigit? b = some j ∧ hexDigit? c = some k ∧
    hexDigit? d = some l ∧ e.toNat = 4096 * i + 256 * j + 16 * k + l

/-- What may stand between two quotes, and the characters it stands for. -/
inductive ContentText (quote : Char) : List Char → List Char → Prop where
  | nil : ContentText quote [] []
  | plain {c : Char} {cs s : List Char} : c ≠ quote → c ≠ '\\' → ContentText quote cs s →
      ContentText quote (c :: cs) (c :: s)
  | escape {c d : Char} {cs s : List Char} : (c, d) ∈ escapes → ContentText quote cs s →
      ContentText quote ('\\' :: c :: cs) (d :: s)
  | code {a b c d e : Char} {cs s : List Char} : CodeText a b c d e → ContentText quote cs s →
      ContentText quote ('\\' :: 'u' :: a :: b :: c :: d :: cs) (e :: s)

/-- A string in double or single quotes. -/
inductive QuotedText : List Char → String → Prop where
  | intro {quote : Char} {body content : List Char} : quote = '"' ∨ quote = '\'' →
      ContentText quote body content →
      QuotedText (quote :: (body ++ [quote])) (String.ofList content)

/-! ### Conditions -/

/-- A literal. -/
inductive LiteralText : List Char → Literal → Prop where
  | null : LiteralText ['n', 'u', 'l', 'l'] .null
  | boolTrue : LiteralText ['t', 'r', 'u', 'e'] (.bool true)
  | boolFalse : LiteralText ['f', 'a', 'l', 's', 'e'] (.bool false)
  | string {cs : List Char} {s : String} : QuotedText cs s → LiteralText cs (.string s)
  | number {cs : List Char} {x : Binary64} : NumberText cs x → LiteralText cs (.number x)

/-- A point and the name after it. -/
inductive FieldNameText : List Char → String → Prop where
  | intro {cs : List Char} {name : String} : NameText cs name → FieldNameText ('.' :: cs) name

/-- The names of a field, each after a point. -/
abbrev FieldText : List Char → Field → Prop := SequenceText FieldNameText

/-- A test of a field. -/
inductive TestText : List Char → Condition → Prop where
  | present {cs : List Char} {field : Field} : FieldText cs field →
      TestText ('@' :: cs) (.present field)
  | compare {cs before after lit : List Char} {field : Field} {op : Comparison}
      {literal : Literal} : FieldText cs field → Blanks before → Blanks after →
      LiteralText lit literal →
      TestText ('@' :: (cs ++ before ++ op.text ++ after ++ lit)) (.compare field op literal)

mutual

/-- A term: a test, or a condition in parentheses. -/
inductive TermText : (nesting : Nat) → List Char → Condition → Prop where
  | test {cs : List Char} {condition : Condition} : TestText cs condition →
      TermText 0 cs condition
  | group {n k : Nat} {before cs after : List Char} {condition : Condition} : Blanks before →
      ConditionText n k cs condition → Blanks after →
      TermText (n + 1) ('(' :: (before ++ cs ++ after ++ [')'])) condition

/-- Terms joined by `&&`, grouped to the left. -/
inductive ConjunctionText : (nesting connectives : Nat) → List Char → Condition → Prop where
  | term {n : Nat} {cs : List Char} {condition : Condition} : TermText n cs condition →
      ConjunctionText n 0 cs condition
  | and {n k m : Nat} {cs before after ds : List Char} {left right : Condition} :
      ConjunctionText n k cs left → Blanks before → Blanks after → TermText m ds right →
      ConjunctionText (max n (k + 1 + m)) (k + 1) (cs ++ before ++ ['&', '&'] ++ after ++ ds)
        (.and left right)

/-- Conjunctions joined by `||`, grouped to the left. -/
inductive ConditionText : (nesting connectives : Nat) → List Char → Condition → Prop where
  | conjunction {n k : Nat} {cs : List Char} {condition : Condition} :
      ConjunctionText n k cs condition → ConditionText n 0 cs condition
  | or {n k m j : Nat} {cs before after ds : List Char} {left right : Condition} :
      ConditionText n k cs left → Blanks before → Blanks after → ConjunctionText m j ds right →
      ConditionText (max n (k + 1 + m)) (k + 1) (cs ++ before ++ ['|', '|'] ++ after ++ ds)
        (.or left right)

end

/-! ### Segments -/

/-- What may stand in brackets. -/
inductive SelectorText : List Char → Segment → Prop where
  | wildcard : SelectorText ['*'] .wildcard
  | index {cs : List Char} {i : Int} : IntegerText cs i → SelectorText cs (.index i)
  | property {cs : List Char} {name : String} : QuotedText cs name →
      SelectorText cs (.property name)
  | filter {n k : Nat} {before cs after : List Char} {condition : Condition} : Blanks before →
      ConditionText n k cs condition → n ≤ maxConditionHeight → Blanks after →
      SelectorText ('?' :: '(' :: (before ++ cs ++ after ++ [')'])) (.filter condition)

/-- A segment in brackets. -/
inductive BracketText : List Char → Segment → Prop where
  | intro {before cs after : List Char} {segment : Segment} : Blanks before →
      SelectorText cs segment → Blanks after →
      BracketText ('[' :: (before ++ cs ++ after ++ [']'])) segment

/-- What may follow a point: a wildcard or a name. -/
inductive MemberText : List Char → Segment → Prop where
  | wildcard : MemberText ['*'] .wildcard
  | property {cs : List Char} {name : String} : NameText cs name → MemberText cs (.property name)

/-- A piece of a path: a segment, or a descent and the segment after it. -/
inductive SegmentText : List Char → List Segment → Prop where
  | member {cs : List Char} {segment : Segment} : MemberText cs segment →
      SegmentText ('.' :: cs) [segment]
  | bracket {cs : List Char} {segment : Segment} : BracketText cs segment →
      SegmentText cs [segment]
  | descendMember {cs : List Char} {segment : Segment} : MemberText cs segment →
      SegmentText ('.' :: '.' :: cs) [.descent, segment]
  | descendBracket {cs : List Char} {segment : Segment} : BracketText cs segment →
      SegmentText ('.' :: '.' :: cs) [.descent, segment]

/-- The text of a whole path. -/
inductive PathText : List Char → List Segment → Prop where
  | empty : PathText [] []
  | rooted {cs : List Char} {pieces : List (List Segment)} : SequenceText SegmentText cs pieces →
      PathText ('$' :: cs) pieces.flatten

end JsonDoc.Path.Grammar
