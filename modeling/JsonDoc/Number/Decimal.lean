import JsonDoc.Number.Binary64

/-!
# `JsonDoc.Number.Decimal`: decimal numerals

A `Decimal` is a sign, a whole number of digits and a power of ten. `Decimal.read?` takes one
from the front of a text, with an optional sign, digits with an optional point among or around
them, and an optional exponent. `Binary64.ofText?` reads a whole text as a number: a decimal
numeral, rounded correctly, or the name of an infinity or of not-a-number in letters of either
case.
-/

set_option autoImplicit false

namespace JsonDoc.Number

/-- The number `digits · 10 ^ exponent` with a sign. -/
structure Decimal where
  negative : Bool
  digits : Nat
  exponent : Int
  deriving DecidableEq, Repr

/-- The digits of a text, read as a whole number. -/
def natOfDigits (cs : List Char) : Nat :=
  cs.foldl (fun n c => 10 * n + (c.toNat - '0'.toNat)) 0

/-- A sign at the front, if there is one: whether it is a minus, and the rest. -/
def readSign : List Char → Bool × List Char
  | '-' :: rest => (true, rest)
  | '+' :: rest => (false, rest)
  | rest => (false, rest)

namespace Decimal

/-- The rank nearest to `digits · 10 ^ exponent`. A numeral far above the largest number or
far below the smallest is decided by its size alone, so that no power of ten grows beyond
the need. -/
def nearestRank (f : Format) (digits : Nat) (exponent : Int) : Nat :=
  match exponent with
  | .ofNat power =>
    if digits = 0 then 0
    else if f.exponents < power then f.magnitudes
    else f.nearestRank (digits * 10 ^ power) 1
  | .negSucc below =>
    let power := below + 1
    -- Ten to the `power` is more than two to the `3 * power`.
    if digits.log2 + f.unitExponent + 2 ≤ 3 * power then 0
    else f.nearestRank digits (10 ^ power)

/-- The number of the numeral, correctly rounded. -/
def toBinary64 (d : Decimal) : Binary64 :=
  .ofRank d.negative (nearestRank binary64 d.digits d.exponent)

/-- Digits with an optional point before, among or after them, as a whole number and a power of
ten, and the rest of the text. -/
def readMantissa? (cs : List Char) : Option (Nat × Int × List Char) :=
  let (whole, rest) := cs.span Char.isDigit
  match rest with
  | '.' :: rest =>
    let (fraction, rest) := rest.span Char.isDigit
    if whole.isEmpty && fraction.isEmpty then none
    else some (natOfDigits (whole ++ fraction), -(fraction.length : Int), rest)
  | rest => if whole.isEmpty then none else some (natOfDigits whole, 0, rest)

/-- An exponent, if the text starts with its mark; a mark without digits is refused. -/
def readExponent? (cs : List Char) : Option (Int × List Char) :=
  match cs with
  | [] => some (0, [])
  | c :: rest =>
    if c = 'e' ∨ c = 'E' then
      let (negative, rest) := readSign rest
      let (digits, rest) := rest.span Char.isDigit
      let size : Int := natOfDigits digits
      if digits.isEmpty then none else some (if negative then -size else size, rest)
    else some (0, c :: rest)

/-- A decimal numeral at the front of the text, and the rest. -/
def read? (cs : List Char) : Option (Decimal × List Char) := do
  let (negative, cs) := readSign cs
  let (digits, below, cs) ← readMantissa? cs
  let (exponent, cs) ← readExponent? cs
  pure (⟨negative, digits, below + exponent⟩, cs)

end Decimal

/-- A single-precision number read from the numeral, as a number of double precision. -/
def Decimal.toSingle (d : Decimal) : Binary64 :=
  let rank := Decimal.nearestRank binary32 d.digits d.exponent
  if rank < binary32.magnitudes then
    .ofRatio d.negative (binary32.units rank) (2 ^ binary32.unitExponent)
  else .infinite d.negative

/-- The number that a whole text names, given how its decimal numerals round. -/
def readNumber? (round : Decimal → Binary64) (s : String) : Option Binary64 :=
  match Decimal.read? s.toList with
  | some (d, []) => some (round d)
  | _ =>
    let (negative, name) := readSign s.toList
    match String.ofList (name.map Char.toLower) with
    | "inf" | "infinity" => some (.infinite negative)
    | "nan" => some .nan
    | _ => none

/-- The double-precision number that the text names. -/
def Binary64.ofText? (s : String) : Option Binary64 := readNumber? Decimal.toBinary64 s

/-- The single-precision number that the text names, widened. -/
def Binary64.ofSingleText? (s : String) : Option Binary64 := readNumber? Decimal.toSingle s

end JsonDoc.Number
