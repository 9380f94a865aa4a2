import JsonDoc.Number.Decimal

/-!
# `JsonDoc.Number.Shortest`: the fewest digits that read back

`shortest` gives the decimal numeral with the fewest digits that rounds to a given magnitude; of
those, the one nearest to it; of two equally near, the one that the `Tie` names.

For a number of digits `n` only the two neighbours of the magnitude on the grid of `n`-digit
numerals can be the answer, since a numeral that reads back has no farther one between itself
and the magnitude that does not. So `shortestAt?` tries these two, the nearer first, and
`shortest` takes the smallest `n` for which one reads back. Seventeen digits are always enough;
the exact expansion of the magnitude, which reads back by itself, makes the search total.
-/

set_option autoImplicit false

namespace JsonDoc.Number

/-- Which of two equally near numerals is taken. -/
inductive Tie where
  /-- The one with the even last digit. -/
  | even
  /-- The larger one. -/
  | up
  deriving DecidableEq, Repr

/-- The exponent of the leading digit of `num / den`, a positive quotient. -/
def leadingExponent (num den : Nat) : Int :=
  if den ≤ num then ((Nat.toDigits 10 (num / den)).length : Int) - 1
  else -((Nat.toDigits 10 ((den - 1) / num)).length : Int)

/-- Whether `digits · 10 ^ exponent` rounds to the magnitude of `rank`. -/
def readsBack (rank : Rank) (digits : Nat) (exponent : Int) : Bool :=
  Decimal.nearestRank binary64 digits exponent == rank.val

/-- The two whole numbers next to `num / den`, the nearer one first. -/
def neighbours (tie : Tie) (num den : Nat) : Nat × Nat :=
  let below := num / den
  let doubled := 2 * (num % den)
  let upper : Bool :=
    if doubled = den then (match tie with | .even => below % 2 == 1 | .up => true)
    else decide (den < doubled)
  if upper then (below + 1, below) else (below, below + 1)

/-- The first of two digit strings that reads back as the magnitude of `rank` when scaled. -/
def firstReading? (rank : Rank) (exponent : Int) (candidates : Nat × Nat) : Option (Nat × Int) :=
  if readsBack rank candidates.1 exponent then some (candidates.1, exponent)
  else if readsBack rank candidates.2 exponent then some (candidates.2, exponent)
  else none

/-- A numeral of `count` digits that reads back as the magnitude of `rank`: the nearer neighbour
on the grid if it does, else the other. -/
def shortestAt? (tie : Tie) (rank : Rank) (count : Nat) : Option (Nat × Int) :=
  let num := Binary64.units rank
  let den := 2 ^ binary64.unitExponent
  let exponent := leadingExponent num den + 1 - count
  -- The quotient is the magnitude in units of the last digit's place.
  firstReading? rank exponent
    (neighbours tie (num * 10 ^ (-exponent).toNat) (den * 10 ^ exponent.toNat))

/-- The digits of the magnitude of `rank` and the power of ten that scales them: as few digits
as read back, and with these as near as can be. -/
def shortest (tie : Tie) (rank : Rank) : Nat × Int :=
  if rank.val = 0 then (0, 0)
  else
    ((List.range 17).findSome? fun n => shortestAt? tie rank (n + 1)).getD
      (Binary64.units rank * 5 ^ binary64.unitExponent, -(binary64.unitExponent : Int))

end JsonDoc.Number
