import JsonDoc.Number.Decimal

/-!
# `JsonDoc.Proofs.Number.Rounding`: rounding depends on the value alone

`Format.nearestRank` rounds a quotient that is given by a numerator and a denominator, and
`Decimal.nearestRank` a numeral that is given by its digits and an exponent. Neither depends on
how the value is written:

* `Format.nearestRank_congr`: equal quotients have the same nearest rank.
* `Decimal.nearestRank_eq`: a numeral is rounded as its quotient. The test for a numeral far
  below the smallest number only saves work; the one for a numeral far above the largest number
  is the hypothesis.
* `Format.nearestRank_units`: the magnitude of a rank rounds to that rank, and so does the whole
  number that it is, if it is one (`Format.nearestRank_whole`).
-/

set_option autoImplicit false

namespace JsonDoc.Number

/-- A common factor does not change the rounded quotient. -/
theorem roundHalfEven_mul_right (num den : Nat) {k : Nat} (hk : 0 < k) :
    roundHalfEven (num * k) (den * k) = roundHalfEven num den := by
  have hquotient : num * k / (den * k) = num / den := Nat.mul_div_mul_right num den hk
  have hdoubled : 2 * (num * k % (den * k)) = 2 * (num % den) * k := by
    rw [Nat.mul_mod_mul_right, Nat.mul_assoc]
  simp only [roundHalfEven, hquotient, hdoubled, Nat.mul_lt_mul_right hk]

/-- A whole number is its own rounding. -/
theorem roundHalfEven_one (n : Nat) : roundHalfEven n 1 = n := by
  simp [roundHalfEven, Nat.mod_one]

namespace Format

variable (f : Format)

/-- A common factor does not change the nearest rank. -/
theorem nearestRank_mul_right (num den : Nat) {k : Nat} (hk : 0 < k) :
    f.nearestRank (num * k) (den * k) = f.nearestRank num den := by
  have hunits : num * k * 2 ^ f.unitExponent = num * 2 ^ f.unitExponent * k := by
    rw [Nat.mul_right_comm]
  have hden (s : Nat) : den * k * 2 ^ s = den * 2 ^ s * k := by rw [Nat.mul_right_comm]
  simp only [nearestRank, hunits, hden, Nat.mul_div_mul_right _ _ hk,
    roundHalfEven_mul_right _ _ hk]

/-- Equal quotients have the same nearest rank. -/
theorem nearestRank_congr {num den num' den' : Nat} (hden : 0 < den) (hden' : 0 < den')
    (h : num * den' = num' * den) : f.nearestRank num den = f.nearestRank num' den' :=
  calc f.nearestRank num den
    _ = f.nearestRank (num * den') (den * den') := (nearestRank_mul_right f num den hden').symm
    _ = f.nearestRank (num' * den) (den' * den) := by rw [h, Nat.mul_comm den den']
    _ = f.nearestRank num' den' := nearestRank_mul_right f num' den' hden

/-- A quotient of less than half the smallest magnitude rounds to zero. -/
theorem nearestRank_eq_zero {num den : Nat} (h : 2 * (num * 2 ^ f.unitExponent) < den) :
    f.nearestRank num den = 0 := by
  have hlt : num * 2 ^ f.unitExponent < den := by omega
  have hquotient : num * 2 ^ f.unitExponent / den = 0 := Nat.div_eq_of_lt hlt
  simp only [nearestRank, hquotient, Nat.log2_zero, Nat.zero_sub, Nat.pow_zero, Nat.mul_one,
    Nat.zero_mul, Nat.zero_add, roundHalfEven, Nat.mod_eq_of_lt hlt, if_pos h]

/-- Zero is rounded to zero. -/
theorem nearestRank_zero (den : Nat) : f.nearestRank 0 den = 0 := by
  simp [nearestRank, roundHalfEven]

/-- The first rank is the magnitude zero. -/
theorem units_zero : f.units 0 = 0 := by simp [units, significand]

/-- The scale of a rank is the one at which its magnitude has all bits of the significand before
the point. -/
theorem log2_units (rank : Nat) : Nat.log2 (f.units rank) - f.fractionBits = f.scale rank := by
  rcases Nat.lt_or_ge rank (2 ^ f.fractionBits) with hlt | hge
  · -- A subnormal magnitude is its own rank.
    have hscale : f.scale rank = 0 := by simp [scale, Nat.div_eq_of_lt hlt]
    have hunits : f.units rank = rank := by simp [units, significand, hscale]
    rw [hunits, hscale]
    rcases Nat.eq_zero_or_pos rank with rfl | hpos
    · simp
    · have := (Nat.log2_lt (by omega)).2 hlt
      omega
  · -- A normal significand has its leading bit at `fractionBits`.
    have hpow : 0 < 2 ^ f.fractionBits := Nat.two_pow_pos _
    have hquotient : 1 ≤ rank / 2 ^ f.fractionBits := (Nat.le_div_iff_mul_le hpow).2 (by omega)
    have hsig : f.significand rank = 2 ^ f.fractionBits + rank % 2 ^ f.fractionBits := by
      have hdecomp := Nat.div_add_mod' rank (2 ^ f.fractionBits)
      have hsub : f.scale rank * 2 ^ f.fractionBits + 2 ^ f.fractionBits
          = rank / 2 ^ f.fractionBits * 2 ^ f.fractionBits := by
        rw [← Nat.succ_mul, scale, Nat.succ_eq_add_one, Nat.sub_add_cancel hquotient]
      rw [significand]
      omega
    have hmod := Nat.mod_lt rank hpow
    have hlog : Nat.log2 (f.units rank) = f.fractionBits + f.scale rank := by
      have hne : f.units rank ≠ 0 := by
        rw [units, hsig]
        have := Nat.mul_pos (show 0 < 2 ^ f.fractionBits + rank % 2 ^ f.fractionBits by omega)
          (Nat.two_pow_pos (f.scale rank))
        omega
      rw [Nat.log2_eq_iff hne, units, hsig]
      constructor
      · rw [Nat.pow_add]
        exact Nat.mul_le_mul_right _ (Nat.le_add_right _ _)
      · rw [Nat.add_right_comm, Nat.pow_add]
        exact Nat.mul_lt_mul_of_pos_right (by rw [Nat.pow_succ]; omega) (Nat.two_pow_pos _)
    omega

/-- The magnitude of a rank rounds to that rank. -/
theorem nearestRank_units (rank : Nat) :
    f.nearestRank (f.units rank) (2 ^ f.unitExponent) = rank := by
  have hpow : 0 < 2 ^ f.unitExponent := Nat.two_pow_pos _
  -- At the scale of the rank the quotient is its significand, with nothing to round.
  have hround : roundHalfEven (f.units rank * 2 ^ f.unitExponent)
      (2 ^ f.unitExponent * 2 ^ f.scale rank) = f.significand rank := by
    have hunits : f.units rank * 2 ^ f.unitExponent
        = f.significand rank * (2 ^ f.unitExponent * 2 ^ f.scale rank) := by
      rw [units, Nat.mul_assoc, Nat.mul_comm (2 ^ f.scale rank)]
    have hmul := roundHalfEven_mul_right (f.significand rank) 1
      (Nat.mul_pos hpow (Nat.two_pow_pos (f.scale rank)))
    rw [Nat.one_mul] at hmul
    rw [hunits, hmul, roundHalfEven_one]
  have hle : f.scale rank * 2 ^ f.fractionBits ≤ rank :=
    calc f.scale rank * 2 ^ f.fractionBits
      _ ≤ rank / 2 ^ f.fractionBits * 2 ^ f.fractionBits :=
        Nat.mul_le_mul_right _ (Nat.sub_le _ _)
      _ ≤ rank := Nat.div_mul_le_self _ _
  simp only [nearestRank, Nat.mul_div_cancel _ hpow, log2_units, hround]
  rw [significand]
  omega

/-- A magnitude that is a whole number is the one nearest to that number. -/
theorem nearestRank_whole {rank whole : Nat} (h : f.units rank = whole * 2 ^ f.unitExponent) :
    f.nearestRank whole 1 = rank := by
  rw [← f.nearestRank_units rank]
  exact nearestRank_congr f Nat.one_pos (Nat.two_pow_pos _) (by rw [h, Nat.mul_one])

end Format

namespace Decimal

variable (f : Format)

/-- A numeral with places after the point is rounded as its quotient. -/
theorem nearestRank_negSucc (digits below : Nat) :
    nearestRank f digits (.negSucc below) = f.nearestRank digits (10 ^ (below + 1)) := by
  simp only [nearestRank]
  split
  · next hsmall =>
    -- Each place after the point divides by more than 8, that is by three bits.
    refine (f.nearestRank_eq_zero ?_).symm
    calc 2 * (digits * 2 ^ f.unitExponent)
      _ < 2 * (2 ^ (digits.log2 + 1) * 2 ^ f.unitExponent) := by
        have := Nat.mul_lt_mul_of_pos_right (Nat.lt_log2_self (n := digits))
          (Nat.two_pow_pos f.unitExponent)
        omega
      _ = 2 ^ (digits.log2 + f.unitExponent + 2) := by
        rw [← Nat.pow_add, ← Nat.pow_succ']
        congr 1
        omega
      _ ≤ 2 ^ (3 * (below + 1)) := Nat.pow_le_pow_right (by decide) hsmall
      _ = 8 ^ (below + 1) := by rw [Nat.pow_mul]
      _ ≤ 10 ^ (below + 1) := Nat.pow_le_pow_left (by decide) _
  · rfl

/-- A numeral without places after the point is rounded as a whole number, unless it is far above
the largest one. -/
theorem nearestRank_ofNat (digits : Nat) {power : Nat} (h : power ≤ f.exponents) :
    nearestRank f digits (.ofNat power) = f.nearestRank (digits * 10 ^ power) 1 := by
  simp only [nearestRank, if_neg (Nat.not_lt.2 h)]
  split
  · next hzero => rw [hzero, Nat.zero_mul, f.nearestRank_zero]
  · rfl

/-- A numeral that is not far above the largest number is rounded as its quotient. -/
theorem nearestRank_eq (digits : Nat) {exponent : Int} (h : exponent ≤ f.exponents) :
    nearestRank f digits exponent
      = f.nearestRank (digits * 10 ^ exponent.toNat) (10 ^ (-exponent).toNat) := by
  cases exponent with
  | ofNat power =>
    have hneg : (-Int.ofNat power).toNat = 0 := by
      rw [Int.ofNat_eq_natCast]
      omega
    rw [show (Int.ofNat power).toNat = power from rfl, hneg, Nat.pow_zero,
      nearestRank_ofNat f digits (Int.ofNat_le.1 h)]
  | negSucc below =>
    rw [nearestRank_negSucc, show (Int.negSucc below).toNat = 0 from rfl,
      show (-Int.negSucc below).toNat = below + 1 from rfl, Nat.pow_zero, Nat.mul_one]

/-- The exact expansion of a magnitude rounds to its rank. -/
theorem nearestRank_expansion (rank : Nat) :
    nearestRank f (f.units rank * 5 ^ f.unitExponent) (-(f.unitExponent : Int)) = rank := by
  have hwhole : (-(f.unitExponent : Int)).toNat = 0 := by omega
  have hten : 10 ^ f.unitExponent = 2 ^ f.unitExponent * 5 ^ f.unitExponent := by
    rw [← Nat.mul_pow]
  rw [nearestRank_eq f _ (by omega), hwhole, Int.neg_neg, Int.toNat_natCast, Nat.pow_zero,
    Nat.mul_one, hten, f.nearestRank_mul_right _ _ (Nat.pow_pos (by decide)),
    f.nearestRank_units]

/-- A numeral that rounds to a finite positive magnitude is not far above the largest one. -/
theorem exponent_le_of_nearestRank {digits rank : Nat} {exponent : Int}
    (h : nearestRank f digits exponent = rank) (hpos : 0 < rank) (hlt : rank < f.magnitudes) :
    exponent ≤ f.exponents := by
  cases exponent with
  | negSucc below => omega
  | ofNat power =>
    simp only [nearestRank] at h
    split at h
    · omega
    · split at h
      · omega
      · rw [Int.ofNat_eq_natCast]
        omega

/-- A numeral that rounds to a positive magnitude has a digit that is not zero. -/
theorem digits_pos_of_nearestRank {digits rank : Nat} {exponent : Int}
    (h : nearestRank f digits exponent = rank) (hpos : 0 < rank) (hlt : rank < f.magnitudes) :
    0 < digits := by
  refine Nat.pos_of_ne_zero fun hzero => ?_
  rw [nearestRank_eq f digits (exponent_le_of_nearestRank f h hpos hlt), hzero, Nat.zero_mul,
    f.nearestRank_zero] at h
  omega

/-- A numeral that rounds to a positive magnitude is not far below the smallest one. -/
theorem le_exponent_of_nearestRank {digits : Nat} {exponent : Int}
    (h : 0 < nearestRank f digits exponent) :
    -(digits.log2 + f.unitExponent + 2 : Int) ≤ exponent := by
  cases exponent with
  | ofNat power =>
    rw [Int.ofNat_eq_natCast]
    omega
  | negSucc below =>
    simp only [nearestRank] at h
    split at h
    · omega
    · omega

end Decimal

end JsonDoc.Number
