import JsonDoc.Number.Format

/-!
# `JsonDoc.Number.Binary64`: double-precision numbers

The numbers of a document are those of the binary64 format. A finite one is a sign and the rank
of its magnitude (`JsonDoc.Number.Format`), so that every operation here is an exact quotient
rounded once (`Binary64.ofRatio`). There is one not-a-number, as nothing tells two of them
apart.

Equality of the type is identity: it tells the two zeros apart. The comparison of numbers is
`Binary64.order`, which identifies the zeros and does not relate not-a-number to anything,
itself included. It compares positions on one line (`Binary64.position?`), where the infinities
stand one step beyond the last finite number.
-/

set_option autoImplicit false

namespace JsonDoc.Number

/-- The rank of a finite magnitude of double precision. -/
abbrev Rank := Fin binary64.magnitudes

/-- A double-precision number. -/
inductive Binary64 where
  | nan
  | infinite (negative : Bool)
  | finite (negative : Bool) (rank : Rank)
  deriving DecidableEq, Repr

namespace Binary64

/-- The number of rank `rank` with the given sign, infinite from `binary64.magnitudes` on. -/
def ofRank (negative : Bool) (rank : Nat) : Binary64 :=
  if h : rank < binary64.magnitudes then finite negative ⟨rank, h⟩ else infinite negative

/-- The number nearest to `num / den` with the given sign; ties go to the even neighbour. -/
def ofRatio (negative : Bool) (num den : Nat) : Binary64 :=
  ofRank negative (binary64.nearestRank num den)

/-- The number nearest to `n`. -/
def ofInt (n : Int) : Binary64 := ofRatio (n < 0) n.natAbs 1

/-- Zero without a sign. -/
def zero : Binary64 := finite false ⟨0, by decide⟩

instance : Inhabited Binary64 := ⟨zero⟩

/-- The magnitude of a rank in units of `2 ^ -1074`. -/
def units (rank : Rank) : Nat := binary64.units rank

/-- The number with the other sign. -/
def neg : Binary64 → Binary64
  | nan => nan
  | infinite negative => infinite (!negative)
  | finite negative rank => finite (!negative) rank

/-- Neither infinite nor not-a-number. -/
def isFinite : Binary64 → Bool
  | finite .. => true
  | _ => false

/-- Zero of either sign. -/
def isZero : Binary64 → Bool
  | finite _ rank => rank.val == 0
  | _ => false

/-- The integer that the number is, where it is one. -/
def toInt? : Binary64 → Option Int
  | finite negative rank =>
    let whole := units rank / 2 ^ binary64.unitExponent
    if units rank % 2 ^ binary64.unitExponent = 0 then
      some (if negative then -(whole : Int) else whole)
    else none
  | _ => none

/-- Finite, with nothing after the point. -/
def isWhole (x : Binary64) : Bool := x.toInt?.isSome

/-- The number cut off at its point and kept within the signed integers of 64 bits; zero for
not-a-number. -/
def toInt64 : Binary64 → Int
  | nan => 0
  | infinite negative => if negative then -2 ^ 63 else 2 ^ 63 - 1
  | finite negative rank =>
    let whole : Int := (units rank / 2 ^ binary64.unitExponent : Nat)
    max (-2 ^ 63) (min (if negative then -whole else whole) (2 ^ 63 - 1))

/-- The number without its sign. -/
def abs : Binary64 → Binary64
  | nan => nan
  | infinite _ => infinite false
  | finite _ rank => finite false rank

/-- Where the number stands among all numbers, by rank, with zero in the middle. -/
def position? : Binary64 → Option Int
  | nan => none
  | infinite negative =>
    some (if negative then -(binary64.magnitudes : Int) else binary64.magnitudes)
  | finite negative rank => some (if negative then -(rank.val : Int) else rank.val)

/-- How two numbers compare; nothing where one of them is not a number. -/
def order (x y : Binary64) : Option Ordering :=
  match x.position?, y.position? with
  | some a, some b => some (compare a b)
  | _, _ => none

/-- Numeric equality: the zeros are equal, and not-a-number differs from itself. -/
def equals (x y : Binary64) : Bool := x.order y == some .eq

/-- One number is less than the other. -/
def lessThan (x y : Binary64) : Bool := (x.order y).any Ordering.isLT

/-- One number is less than the other or equal to it. -/
def atMost (x y : Binary64) : Bool := (x.order y).any Ordering.isLE

end Binary64

end JsonDoc.Number
