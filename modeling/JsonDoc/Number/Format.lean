/-!
# `JsonDoc.Number.Format`: binary floating-point formats and rounding

The finite magnitudes of a format are numbered from zero upward; the number of a magnitude is
its rank. `Format.units` is the magnitude of a rank, counted in the smallest positive magnitude
of the format, and `Format.nearestRank` is the rank of the magnitude nearest to a quotient of
natural numbers, a tie going to the even neighbour.

Ranks make the order of magnitudes the order of numbers, and let a carry out of the significand
run into the exponent by itself: the rank of `m · 2 ^ s` units is `s · 2 ^ fractionBits + m`,
whether `m` is a subnormal significand, a normal one, or the power of two above the last of
them.
-/

set_option autoImplicit false

-- A power of a natural number or an integer is the one of the core library in every module,
-- whatever other powers are in scope there.
attribute [default_instance 20000, instance (1100)] instPowNat

namespace JsonDoc.Number

/-- A binary floating-point format with gradual underflow. -/
structure Format where
  /-- Bits of the significand after its leading bit. -/
  fractionBits : Nat
  /-- The smallest positive magnitude is two to the power of minus this. -/
  unitExponent : Nat
  /-- How many exponents finite numbers have. -/
  exponents : Nat
  deriving DecidableEq, Repr

/-- The format of double precision. -/
def binary64 : Format := ⟨52, 1074, 2047⟩

/-- The format of single precision. -/
def binary32 : Format := ⟨23, 149, 255⟩

/-- The quotient `num / den` rounded to a natural number, a half going to the even neighbour. -/
def roundHalfEven (num den : Nat) : Nat :=
  let quotient := num / den
  let doubled := 2 * (num % den)
  if doubled < den then quotient
  else if den < doubled then quotient + 1
  else quotient + quotient % 2

namespace Format

/-- The number of finite magnitudes; the first rank that stands for an overflow. -/
def magnitudes (f : Format) : Nat := f.exponents * 2 ^ f.fractionBits

/-- The power of two by which the significand of rank `rank` is scaled. -/
def scale (f : Format) (rank : Nat) : Nat := rank / 2 ^ f.fractionBits - 1

/-- The significand of rank `rank`, a whole number. -/
def significand (f : Format) (rank : Nat) : Nat := rank - f.scale rank * 2 ^ f.fractionBits

/-- The magnitude of rank `rank`, in units of the smallest positive magnitude. -/
def units (f : Format) (rank : Nat) : Nat := f.significand rank * 2 ^ f.scale rank

/-- The rank of the magnitude nearest to `num / den`, for a positive `den`; `magnitudes` or more
where the quotient is too large for a finite one. -/
def nearestRank (f : Format) (num den : Nat) : Nat :=
  let units := num * 2 ^ f.unitExponent
  -- The scale at which the quotient has all bits of the significand before its point.
  let scale := Nat.log2 (units / den) - f.fractionBits
  scale * 2 ^ f.fractionBits + roundHalfEven units (den * 2 ^ scale)

/-- The rank of the product of two magnitudes, rounded. -/
def product (f : Format) (r s : Nat) : Nat :=
  f.nearestRank (f.units r * f.units s) (2 ^ (2 * f.unitExponent))

/-- The rank of the quotient of two magnitudes, rounded; the divisor is not zero. -/
def quotient (f : Format) (r s : Nat) : Nat := f.nearestRank (f.units r) (f.units s)

end Format

end JsonDoc.Number
