import JsonDoc.Number.Binary64

/-!
# `JsonDoc.Path.Basic`: paths into a document

A path is a list of segments. Each segment leads from a node to some of the nodes at or below
it: a member, an item, all children, the children that satisfy a condition, or, for a descent,
the node itself and everything below it.

A condition is a combination of tests of a candidate node: that a chain of member names leads
somewhere from it, or that what it leads to compares with a literal. `Condition.height` is the
number of connectives nested in each other.

Equality of these types is identity. `Segment.equals` compares number literals as numbers, so
that a literal that is not a number differs from itself.
-/

set_option autoImplicit false

namespace JsonDoc

open Number

/-- How a field is compared with a literal. -/
inductive Comparison where
  | eq
  | ne
  | lt
  | le
  | gt
  | ge
  deriving DecidableEq, Repr

/-- What a field is compared with. -/
inductive Literal where
  | null
  | bool (b : Bool)
  | number (x : Binary64)
  | string (s : String)
  deriving DecidableEq, Repr

/-- A chain of member names that starts at the candidate node; the empty chain is the candidate. -/
abbrev Field := List String

/-- A test of a candidate node. -/
inductive Condition where
  /-- The field is there and compares with the literal. -/
  | compare (field : Field) (op : Comparison) (literal : Literal)
  /-- The field is there. -/
  | present (field : Field)
  | and (left right : Condition)
  | or (left right : Condition)
  deriving DecidableEq, Repr

/-- A step of a path. -/
inductive Segment where
  /-- The member of an object with this name. -/
  | property (name : String)
  /-- The item of an array at this index; negative indices count from the end. -/
  | index (i : Int)
  /-- Every child. -/
  | wildcard
  /-- The node itself and everything below it. -/
  | descent
  /-- The children that satisfy the condition. -/
  | filter (condition : Condition)
  deriving DecidableEq, Repr

/-- A path: its text and the segments read from it. -/
structure Path where
  text : String
  segments : List Segment
  deriving DecidableEq, Repr

/-- The path leads to the root itself. -/
def Path.isRoot (path : Path) : Bool := path.segments.isEmpty

/-- How many connectives are nested in each other. -/
def Condition.height : Condition → Nat
  | compare .. => 0
  | present _ => 0
  | and left right => max left.height right.height + 1
  | or left right => max left.height right.height + 1

/-- The fields that a condition tests, from left to right. -/
def Condition.fields : Condition → List Field
  | compare field _ _ => [field]
  | present field => [field]
  | and left right => left.fields ++ right.fields
  | or left right => left.fields ++ right.fields

/-- Equality of literals, of numbers as numbers. -/
def Literal.equals : Literal → Literal → Bool
  | null, null => true
  | bool a, bool b => a == b
  | number x, number y => x.equals y
  | string s, string t => s == t
  | _, _ => false

/-- Equality of conditions, of number literals as numbers. -/
def Condition.equals : Condition → Condition → Bool
  | compare field op literal, compare field' op' literal' =>
    decide (field = field') && decide (op = op') && literal.equals literal'
  | present field, present field' => decide (field = field')
  | and left right, and left' right' => left.equals left' && right.equals right'
  | or left right, or left' right' => left.equals left' && right.equals right'
  | _, _ => false

/-- Equality of segments, of number literals as numbers. -/
def Segment.equals : Segment → Segment → Bool
  | filter condition, filter condition' => condition.equals condition'
  | segment, segment' => decide (segment = segment')

/-- Equality of lists of segments, of number literals as numbers. -/
def Segment.equalLists : List Segment → List Segment → Bool
  | [], [] => true
  | segment :: rest, segment' :: rest' => segment.equals segment' && equalLists rest rest'
  | _, _ => false

end JsonDoc
