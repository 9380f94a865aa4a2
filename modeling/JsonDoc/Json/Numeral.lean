import JsonDoc.Json.Basic
import JsonDoc.Json.Fault

/-!
# `JsonDoc.Json.Numeral`: reading the numbers of a JSON text

An integer that fits in 64 bits is kept exactly. Any other number is a significand of at most 64
bits, the digits that fit, scaled by a power of ten: the significand is rounded to double
precision, and then multiplied or divided by a rounded power of ten, which rounds again. The
result can therefore differ from the number nearest to the numeral.
-/

set_option autoImplicit false

namespace JsonDoc.Json

open Number

/-- Where reading stopped: why, the text after the place, and by how many bytes the column is
set back. -/
structure Stop where
  cause : Cause
  rest : List UInt8
  setBack : Nat := 0
  deriving DecidableEq

/-- The byte is a decimal digit. -/
def isDigit (c : UInt8) : Bool := 0x30 ≤ c && c ≤ 0x39

/-- The value of a decimal digit. -/
def digitValue (c : UInt8) : Nat := c.toNat - 0x30

/-- The digits at the front that fit after `significand` in a number below `bound`: the number,
how many they are, and the rest. -/
def takeDigits (bound significand taken : Nat) : List UInt8 → Nat × Nat × List UInt8
  | [] => (significand, taken, [])
  | c :: rest =>
    if isDigit c && significand * 10 + digitValue c < bound then
      takeDigits bound (significand * 10 + digitValue c) (taken + 1) rest
    else (significand, taken, c :: rest)

/-- How many digits stand at the front, and the rest. -/
def skipDigits (cs : List UInt8) : Nat × List UInt8 :=
  ((cs.takeWhile isDigit).length, cs.dropWhile isDigit)

/-- The rank of the rounded power of ten. -/
def powerOfTen (k : Nat) : Nat := binary64.nearestRank (10 ^ k) 1

/-- The rank of `significand`, rounded, scaled by `10 ^ exponent`; nothing where that is too
large. A division takes the power of ten in at most two parts: what is left after `10 ^ 616` is
zero. -/
def scaledRank? (significand : Nat) (exponent : Int) : Option Nat :=
  let rank := binary64.nearestRank significand 1
  match exponent with
  | .ofNat k =>
    if k ≤ 308 then
      let scaled := binary64.product rank (powerOfTen k)
      if scaled < binary64.magnitudes then some scaled else none
    else if rank = 0 then some 0
    else none
  | .negSucc below =>
    let k := below + 1
    if k ≤ 308 then some (binary64.quotient rank (powerOfTen k))
    else if k ≤ 616 then
      some (binary64.quotient (binary64.quotient rank (powerOfTen 308)) (powerOfTen (k - 308)))
    else some 0

/-- The integer `n` kept within the signed integers of 32 bits. -/
def saturated (n : Int) : Int := max (-2 ^ 31) (min n (2 ^ 31 - 1))

/-- The number of a sign, a significand and an exponent. -/
def floatNumeral (negative : Bool) (significand : Nat) (exponent : Int) (rest : List UInt8) :
    Except Stop (Numeral × List UInt8) :=
  match scaledRank? significand exponent with
  | some rank => .ok (.float (.ofRank negative rank), rest)
  | none => .error ⟨.hugeNumber, rest, 0⟩

/-- The exponent after its mark, added to `exponent`. An exponent of more than 31 bits is
decided by its sign: the number is zero, or else too large. -/
def readExponent (negative : Bool) (significand : Nat) (exponent : Int) (cs : List UInt8) :
    Except Stop (Numeral × List UInt8) :=
  let (below, cs) : Bool × List UInt8 :=
    match cs with
    | 0x2B :: rest => (false, rest)
    | 0x2D :: rest => (true, rest)
    | cs => (false, cs)
  match cs with
  | [] => .error ⟨.endInValue, [], 0⟩
  | c :: rest =>
    if !isDigit c then .error ⟨.malformedNumber, rest, 0⟩
    else
      let (size, _, rest) := takeDigits (2 ^ 31) (digitValue c) 0 rest
      match rest with
      | d :: more =>
        if isDigit d then
          -- This digit no longer fits.
          if significand != 0 && !below then .error ⟨.hugeNumber, more, 0⟩
          else floatNumeral negative 0 0 (skipDigits more).2
        else
          floatNumeral negative significand
            (saturated (if below then exponent - size else exponent + size)) rest
      | [] =>
        floatNumeral negative significand
          (saturated (if below then exponent - size else exponent + size)) rest

/-- What follows the digits of a number: an exponent or nothing. -/
def readScale (negative : Bool) (significand : Nat) (exponent : Int) (cs : List UInt8) :
    Except Stop (Numeral × List UInt8) :=
  match cs with
  | 0x65 :: rest => readExponent negative significand exponent rest
  | 0x45 :: rest => readExponent negative significand exponent rest
  | cs => floatNumeral negative significand exponent cs

/-- The digits after a point. Those that no longer fit in the significand are dropped. -/
def readFraction (negative : Bool) (significand : Nat) (exponent : Int) (cs : List UInt8) :
    Except Stop (Numeral × List UInt8) :=
  let (significand, taken, rest) := takeDigits (2 ^ 64) significand 0 cs
  let (skipped, rest) := skipDigits rest
  if taken + skipped = 0 then
    match rest with
    | [] => .error ⟨.endInValue, [], 0⟩
    | _ :: more => .error ⟨.malformedNumber, more, 0⟩
  else readScale negative significand (exponent - taken) rest

/-- An integer that fits in 64 bits; a negative one that does not fit in the signed ones is
rounded, and so is a negative zero, which keeps its sign. -/
def integerNumeral (negative : Bool) (significand : Nat) : Numeral :=
  if !negative then .integer significand
  else if significand = 0 || 2 ^ 63 < significand then .float (.ofRatio true significand 1)
  else .integer (-significand)

/-- A number, after its sign. -/
def readNumeral (negative : Bool) (cs : List UInt8) : Except Stop (Numeral × List UInt8) :=
  match cs with
  | [] => .error ⟨.endInValue, [], 0⟩
  | c :: rest =>
    if !isDigit c then .error ⟨.malformedNumber, rest, 0⟩
    else if c = 0x30 && (rest.head?.any isDigit) then .error ⟨.malformedNumber, rest.tail, 0⟩
    else
      let (significand, _, rest) := takeDigits (2 ^ 64) 0 0 cs
      let (dropped, rest) := skipDigits rest
      match rest with
      | 0x2E :: more => readFraction negative significand dropped more
      | 0x65 :: more => readExponent negative significand dropped more
      | 0x45 :: more => readExponent negative significand dropped more
      | rest =>
        if dropped = 0 then .ok (integerNumeral negative significand, rest)
        else floatNumeral negative significand dropped rest

end JsonDoc.Json
