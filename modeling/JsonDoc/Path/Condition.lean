import JsonDoc.Path.Basic
import JsonDoc.Value.Scalar

/-!
# `JsonDoc.Path.Condition`: testing candidates

`Condition.holds` tests a candidate node. Conditions never fail: a field that leads nowhere, and
a value that cannot be compared with the literal, make a comparison false. Numbers are compared
with numbers and with strings that hold a numeral, strings with strings by code point, and
booleans and null only for being the same or not.
-/

set_option autoImplicit false

namespace JsonDoc

/-- The value that the field leads to from the candidate. -/
def Field.resolve (field : Field) (candidate : Value) : Option Value :=
  match field with
  | [] => some candidate
  | name :: rest =>
    candidate.object?.bind fun members =>
      (Members.get? members name).bind fun child => Field.resolve rest child

/-- Whether the comparison holds of how two things are ordered. Things that are not ordered
differ. -/
def Comparison.holds (op : Comparison) (order : Option Ordering) : Bool :=
  match op with
  | eq => order == some .eq
  | ne => order != some .eq
  | lt => order == some .lt
  | le => order == some .lt || order == some .eq
  | gt => order == some .gt
  | ge => order == some .gt || order == some .eq

/-- Whether the comparison holds of two things that can only be the same or not. -/
def Comparison.holdsOfSame (op : Comparison) (same : Bool) : Bool :=
  match op with
  | eq => same
  | ne => !same
  | _ => false

/-- Whether a value compares with a literal. -/
def Literal.compares (literal : Literal) (op : Comparison) (v : Value) : Bool :=
  match literal with
  | null => op.holdsOfSame (v.kind == .null)
  | bool b =>
    match v with
    | .bool a => op.holdsOfSame (a == b)
    | _ => false
  | number x => v.number?.any fun y => op.holds (y.order x)
  | string s =>
    match v with
    | .string t => op.holds (some (Ord.compare t s))
    | _ => false

/-- Whether the condition holds of the candidate. -/
def Condition.holds : Condition → Value → Bool
  | compare field op literal, candidate => (field.resolve candidate).any (literal.compares op)
  | present field, candidate => (field.resolve candidate).isSome
  | and left right, candidate => left.holds candidate && right.holds candidate
  | or left right, candidate => left.holds candidate || right.holds candidate

end JsonDoc
