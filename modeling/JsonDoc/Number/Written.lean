import JsonDoc.Number.Shortest

/-!
# `JsonDoc.Number.Written`: numbers as text

A number is written with the fewest digits that read back. A `NumberStyle` says which of two
equally near numerals is taken, which exponents are written out in zeros rather than as an
exponent, and whether an integer keeps a point. `plainStyle` is the style of messages and path
literals, `jsonStyle` that of JSON text.
-/

set_option autoImplicit false

namespace JsonDoc.Number

/-- An integer in decimal digits. -/
def integerText (n : Int) : List Char :=
  (if n < 0 then ['-'] else []) ++ Nat.toDigits 10 n.natAbs

/-- How the digits of a number are laid out. -/
structure NumberStyle where
  /-- Which of two equally near numerals is taken. -/
  tie : Tie
  /-- Whether a number whose leading digit has this exponent is written without an exponent. -/
  positional : Int → Bool
  /-- Whether an integer written without an exponent ends in a point and a zero. -/
  pointed : Bool

/-- Every number in full, an integer without a point; ties go up. -/
def plainStyle : NumberStyle := ⟨.up, fun _ => true, false⟩

/-- Full positions from a hundred-thousandth up to sixteen integer digits, an exponent
elsewhere; an integer keeps a point, and ties go to the even digit. -/
def jsonStyle : NumberStyle := ⟨.even, fun e => -5 ≤ e && e ≤ 15, true⟩

/-- The digits of a numeral without the zeros at its end, and the exponent of the last digit
kept. -/
def significantDigits (digits : Nat) (exponent : Int) : List Char × Int :=
  let all := Nat.toDigits 10 digits
  let kept := (all.reverse.dropWhile (· == '0')).reverse
  (kept, exponent + ((all.length : Int) - kept.length))

/-- The number `digits · 10 ^ exponent` with every position written, zeros included. -/
def positionalText (pointed : Bool) (digits : List Char) (exponent : Int) : List Char :=
  match exponent with
  | .ofNat zeros =>
    digits ++ List.replicate zeros '0' ++ (if pointed then ['.', '0'] else [])
  | .negSucc below =>
    let places := below + 1
    if places < digits.length then
      digits.take (digits.length - places) ++ ['.'] ++ digits.drop (digits.length - places)
    else
      ['0', '.'] ++ List.replicate (places - digits.length) '0' ++ digits

/-- One digit before the point and the exponent of that digit, with its sign, after the mark. -/
def exponentText (digits : List Char) (leading : Int) : List Char :=
  let fraction := digits.drop 1
  digits.take 1 ++ (if fraction.isEmpty then [] else ['.'] ++ fraction) ++
    (if leading < 0 then ['e', '-'] else ['e', '+']) ++ Nat.toDigits 10 leading.natAbs

/-- The magnitude of `rank` in the given style. -/
def magnitudeText (style : NumberStyle) (rank : Rank) : List Char :=
  if rank.val = 0 then positionalText style.pointed ['0'] 0
  else
    let (digits, exponent) := shortest style.tie rank
    let (digits, exponent) := significantDigits digits exponent
    let leading := exponent + (digits.length : Int) - 1
    if style.positional leading then positionalText style.pointed digits exponent
    else exponentText digits leading

/-- The number in the given style; the numbers that are not finite by name. -/
def Binary64.text (style : NumberStyle) : Binary64 → List Char
  | .nan => ['N', 'a', 'N']
  | .infinite negative => (if negative then ['-'] else []) ++ ['i', 'n', 'f']
  | .finite negative rank => (if negative then ['-'] else []) ++ magnitudeText style rank

/-- The number in full, as messages and path literals show it. -/
def Binary64.plain (x : Binary64) : String := String.ofList (x.text plainStyle)

/-- The number as JSON text writes one that is not a small integer. -/
def Binary64.json (x : Binary64) : String := String.ofList (x.text jsonStyle)

end JsonDoc.Number
