import JsonDoc.Proofs.Number.Nearest
import Mathlib.Algebra.Order.Ring.Pow
import Mathlib.Data.Nat.Dist
import Mathlib.Tactic.Positivity

/-!
# `JsonDoc.Proofs.Number.Error`: errors of rounding

A quotient that is not subnormal and the magnitude that it is rounded to differ at most by a factor
of `1 + 2 ^ -(fractionBits + 1)`. Below the normal magnitudes it takes more factors of that size,
and `Format.near_nearestRank` says how many: `Format.Near n x y` counts them, and the counts add up
under products and quotients.

As a magnitude has less than `2 ^ (fractionBits + 1)` steps, quotients that are a few factors apart
are rounded to magnitudes that are as many ranks apart, or one more (`Format.dist_nearestRank_le`).
-/

set_option autoImplicit false

namespace JsonDoc.Number.Format

variable (f : Format)

/-! ### Counted factors -/

/-- The largest factor that one rounding makes. -/
def growth : ℚ := 1 + 1 / ((2 * 2 ^ f.fractionBits : Nat) : ℚ)

/-- The factor is positive, so that bounds may be divided by it. -/
theorem growth_pos : 0 < f.growth := by
  rw [growth]
  positivity

/-- Two positive numbers are `n` roundings apart at most. -/
structure Near (n : Nat) (x y : ℚ) : Prop where
  pos_left : 0 < x
  pos_right : 0 < y
  le_right : x ≤ f.growth ^ n * y
  le_left : y ≤ f.growth ^ n * x

section
variable {f} {n m : Nat} {x y z x' y' : ℚ}

/-- Neither of the two numbers is told apart as the exact one. -/
theorem Near.symm (h : f.Near n x y) : f.Near n y x :=
  ⟨h.pos_right, h.pos_left, h.le_left, h.le_right⟩

/-- Under products the counts of both factors add up. -/
theorem Near.mul (h : f.Near n x y) (h' : f.Near m x' y') : f.Near (n + m) (x * x') (y * y') := by
  have hgrowth := f.growth_pos
  have hmul {a b a' b' : ℚ} (ha' : 0 < a') (hb : 0 < b) (hle : a ≤ f.growth ^ n * b)
      (hle' : a' ≤ f.growth ^ m * b') : a * a' ≤ f.growth ^ (n + m) * (b * b') :=
    calc a * a'
      _ ≤ f.growth ^ n * b * (f.growth ^ m * b') :=
        mul_le_mul hle hle' (le_of_lt ha') (by positivity)
      _ = f.growth ^ (n + m) * (b * b') := by ring
  exact ⟨mul_pos h.pos_left h'.pos_left, mul_pos h.pos_right h'.pos_right,
    hmul h'.pos_left h.pos_right h.le_right h'.le_right,
    hmul h'.pos_right h.pos_left h.le_left h'.le_left⟩

/-- Inverses are as many factors apart as the numbers are. -/
theorem Near.inv (h : f.Near n x y) : f.Near n x⁻¹ y⁻¹ := by
  have hpow := pow_pos f.growth_pos n
  have hinv {a b : ℚ} (ha : 0 < a) (hb : 0 < b) (hle : b ≤ f.growth ^ n * a) :
      a⁻¹ ≤ f.growth ^ n * b⁻¹ := by
    rwa [← div_eq_mul_inv, inv_eq_one_div, div_le_div_iff₀ ha hb, one_mul]
  exact ⟨inv_pos.2 h.pos_left, inv_pos.2 h.pos_right, hinv h.pos_left h.pos_right h.le_left,
    hinv h.pos_right h.pos_left h.le_right⟩

/-- Quotients add up the counts of dividend and divisor. -/
theorem Near.div (h : f.Near n x y) (h' : f.Near m x' y') : f.Near (n + m) (x / x') (y / y') := by
  rw [div_eq_mul_inv, div_eq_mul_inv]
  exact h.mul h'.inv

/-- Roundings one after the other add up as well. -/
theorem Near.trans (h : f.Near n x y) (h' : f.Near m y z) : f.Near (n + m) x z := by
  have htrans {a b c : ℚ} {n m : Nat} (hle : a ≤ f.growth ^ n * b) (hle' : b ≤ f.growth ^ m * c) :
      a ≤ f.growth ^ (n + m) * c := by
    rw [pow_add, mul_assoc]
    exact le_trans hle (mul_le_mul_of_nonneg_left hle' (le_of_lt (pow_pos f.growth_pos n)))
  refine ⟨h.pos_left, h'.pos_right, htrans h.le_right h'.le_right, ?_⟩
  rw [Nat.add_comm]
  exact htrans h'.le_left h.le_left

end

/-- Half of `unit` is a few factors, the fewer the more units there are. -/
theorem le_growth_mul {n a b unit divisor : Nat} (hdivisor : 0 < divisor)
    (hle : 2 * a ≤ 2 * b + unit) (hunits : 2 ^ f.fractionBits * unit ≤ n * b) :
    (a : ℚ) / divisor ≤ f.growth ^ n * ((b : ℚ) / divisor) := by
  have hcast : (0 : ℚ) < divisor := Nat.cast_pos.2 hdivisor
  have hparts : (0 : ℚ) < ((2 * 2 ^ f.fractionBits : Nat) : ℚ) :=
    Nat.cast_pos.2 (Nat.mul_pos Nat.two_pos (Nat.two_pow_pos _))
  have hmul : 2 * 2 ^ f.fractionBits * a ≤ (2 * 2 ^ f.fractionBits + n) * b := by
    calc 2 * 2 ^ f.fractionBits * a
      _ = 2 ^ f.fractionBits * (2 * a) := by ring
      _ ≤ 2 ^ f.fractionBits * (2 * b + unit) := Nat.mul_le_mul_left _ hle
      _ = 2 * 2 ^ f.fractionBits * b + 2 ^ f.fractionBits * unit := by ring
      _ ≤ (2 * 2 ^ f.fractionBits + n) * b := by
        rw [Nat.add_mul]
        exact Nat.add_le_add_left hunits _
  -- Bernoulli: `n` steps of the significand are no more than `n` factors.
  have hbernoulli : 1 + n * (1 / ((2 * 2 ^ f.fractionBits : Nat) : ℚ)) ≤ f.growth ^ n :=
    one_add_mul_le_pow (le_trans (by norm_num) (le_of_lt (one_div_pos.2 hparts))) n
  refine le_trans ?_ (mul_le_mul_of_nonneg_right hbernoulli
    (div_nonneg (Nat.cast_nonneg b) (le_of_lt hcast)))
  rw [← mul_div_assoc, mul_one_div, one_add_div (ne_of_gt hparts), div_mul_eq_mul_div]
  refine div_le_div_of_nonneg_right ((le_div_iff₀ hparts).2 ?_) (le_of_lt hcast)
  rw [mul_comm]
  exact_mod_cast hmul

/-- Two whole numbers that differ by half of `unit` at most. -/
theorem near_of_half {n exact rounded unit divisor : Nat} (hdivisor : 0 < divisor)
    (hunit : 0 < unit) (habove : 2 * exact ≤ 2 * rounded + unit)
    (hbelow : 2 * rounded ≤ 2 * exact + unit) (hexact : 2 ^ f.fractionBits * unit ≤ n * exact)
    (hrounded : 2 ^ f.fractionBits * unit ≤ n * rounded) :
    f.Near n ((exact : ℚ) / divisor) ((rounded : ℚ) / divisor) := by
  have hpos {a : Nat} (h : 2 ^ f.fractionBits * unit ≤ n * a) : (0 : ℚ) < (a : ℚ) / divisor := by
    have hmul : 0 < n * a := Nat.lt_of_lt_of_le (Nat.mul_pos (Nat.two_pow_pos _) hunit) h
    exact div_pos (Nat.cast_pos.2 (Nat.pos_of_mul_pos_left hmul)) (Nat.cast_pos.2 hdivisor)
  exact ⟨hpos hexact, hpos hrounded, f.le_growth_mul hdivisor habove hrounded,
    f.le_growth_mul hdivisor hbelow hexact⟩

/-- The units of a quotient and of the magnitude that it is rounded to, counted in the unit of its
scale: `n` times as many fill the significand, if this is so for the smallest scale. -/
theorem fills_significand {n num den : Nat} (hn : 0 < n) (hden : 0 < den)
    (hunits : (2 * 2 ^ f.fractionBits + n) * den ≤ n * (2 * (num * 2 ^ f.unitExponent))) :
    2 ^ f.fractionBits * (den * 2 ^ f.quotientScale num den) ≤ n * (num * 2 ^ f.unitExponent) ∧
      2 ^ f.fractionBits ≤ n * f.quotientSignificand num den := by
  -- Only subnormal quotients, those of scale zero, can be short of a full significand.
  rcases Nat.eq_zero_or_pos (f.quotientScale num den) with hzero | hpos
  · have habove := @roundHalfEven_above (num * 2 ^ f.unitExponent) den hden
    have hround : f.quotientSignificand num den = roundHalfEven (num * 2 ^ f.unitExponent) den := by
      rw [quotientSignificand, hzero, Nat.pow_zero, Nat.mul_one]
    rw [← hround] at habove
    have hle : (2 * 2 ^ f.fractionBits + n) * den
        ≤ n * (2 * f.quotientSignificand num den + 1) * den := by
      rw [Nat.mul_assoc n]
      exact Nat.le_trans hunits (Nat.mul_le_mul_left n
        (habove.elim Nat.le_of_lt fun h => Nat.le_of_eq h.1))
    have hsig := Nat.le_of_mul_le_mul_right hle hden
    rw [Nat.mul_add, Nat.mul_one, Nat.mul_left_comm] at hsig
    rw [Nat.add_mul, Nat.mul_left_comm, Nat.mul_assoc] at hunits
    rw [hzero, Nat.pow_zero, Nat.mul_one]
    omega
  · have hscale := Nat.ne_of_gt hpos
    exact ⟨Nat.le_trans (f.le_quotient hden hscale) (Nat.le_mul_of_pos_left _ hn),
      Nat.le_trans (f.le_quotientSignificand hden hscale) (Nat.le_mul_of_pos_left _ hn)⟩

/-- A quotient is rounded by few factors: by one if it is normal, or by `n` if `n` times the
quotient is, with half a unit to spare. -/
theorem near_nearestRank {n num den : Nat} (hn : 0 < n) (hden : 0 < den)
    (hunits : (2 * 2 ^ f.fractionBits + n) * den ≤ n * (2 * (num * 2 ^ f.unitExponent))) :
    f.Near n ((num : ℚ) / den) (f.magnitude (f.nearestRank num den)) := by
  have hunit : 0 < den * 2 ^ f.quotientScale num den := Nat.mul_pos hden (Nat.two_pow_pos _)
  have hone : (0 : ℚ) < ((2 ^ f.unitExponent : Nat) : ℚ) := f.unit_pos
  have habove : 2 * (num * 2 ^ f.unitExponent)
      ≤ (2 * f.quotientSignificand num den + 1) * (den * 2 ^ f.quotientScale num den) :=
    (roundHalfEven_above hunit).elim Nat.le_of_lt fun h => Nat.le_of_eq h.1
  have hbelow : 2 * f.quotientSignificand num den * (den * 2 ^ f.quotientScale num den)
      ≤ 2 * (num * 2 ^ f.unitExponent) + den * 2 ^ f.quotientScale num den :=
    (roundHalfEven_below hunit).elim Nat.le_of_lt fun h => Nat.le_of_eq h.1
  -- Quotient and magnitude over one common denominator, so that whole numbers are compared.
  have hquotient : (num : ℚ) / den
      = ((num * 2 ^ f.unitExponent : Nat) : ℚ) / ((den * 2 ^ f.unitExponent : Nat) : ℚ) := by
    rw [Nat.cast_mul, Nat.cast_mul, mul_div_mul_right _ _ (ne_of_gt hone)]
  have hmagnitude : f.magnitude (f.nearestRank num den)
      = ((f.quotientSignificand num den * (den * 2 ^ f.quotientScale num den) : Nat) : ℚ)
        / ((den * 2 ^ f.unitExponent : Nat) : ℚ) := by
    rw [magnitude, f.units_nearestRank hden, Nat.mul_left_comm, Nat.cast_mul den,
      Nat.cast_mul den, mul_div_mul_left _ _ (ne_of_gt (Nat.cast_pos.2 hden))]
  obtain ⟨hexact, hsig⟩ := f.fills_significand hn hden hunits
  rw [hquotient, hmagnitude]
  refine f.near_of_half (Nat.mul_pos hden (Nat.two_pow_pos _)) hunit ?_ ?_ hexact ?_
  · rwa [Nat.add_mul, Nat.one_mul, Nat.mul_assoc 2] at habove
  · rwa [Nat.mul_assoc 2] at hbelow
  · rw [← Nat.mul_assoc n]
    exact Nat.mul_le_mul_right _ hsig

/-! ### Ranks -/

/-- Greater ranks have no smaller scale. -/
theorem scale_mono {r s : Nat} (h : r ≤ s) : f.scale r ≤ f.scale s :=
  Nat.sub_le_sub_right (Nat.div_le_div_right h) 1

/-- Steps get no shorter as ranks grow. -/
theorem step_mono {r s : Nat} (h : r ≤ s) : f.step r ≤ f.step s :=
  div_le_div_of_nonneg_right
    (Nat.cast_le.2 (Nat.pow_le_pow_right Nat.two_pos (f.scale_mono h))) (le_of_lt f.unit_pos)

/-- From one midpoint to the next there is half a step on each side of the magnitude between
them. -/
theorem midpoint_succ (rank : Nat) :
    f.midpoint (rank + 1) = f.midpoint rank + (f.step rank + f.step (rank + 1)) / 2 := by
  rw [midpoint_eq, midpoint_eq, magnitude_succ]
  ring

/-- Midpoints `count` ranks apart are at least as many steps of the lower rank apart. -/
theorem midpoint_add_le (rank count : Nat) :
    f.midpoint rank + count * f.step rank ≤ f.midpoint (rank + count) := by
  induction count with
  | zero => rw [Nat.cast_zero, zero_mul, add_zero, Nat.add_zero]
  | succ count ih =>
    have hlow := f.step_mono (Nat.le_add_right rank count)
    have hhigh := f.step_mono (Nat.le_add_right rank (count + 1))
    rw [← Nat.add_assoc] at hhigh ⊢
    rw [midpoint_succ, Nat.cast_succ, add_mul, one_mul]
    linarith

/-- A midpoint is half a step short of all the steps that significands have values for. -/
theorem midpoint_le_step (rank : Nat) :
    f.midpoint rank ≤ (((2 * 2 ^ f.fractionBits : Nat) : ℚ) - 1 / 2) * f.step rank := by
  have hsucc := f.magnitude_succ_le rank
  rw [magnitude_succ] at hsucc
  rw [midpoint_eq, sub_mul]
  linarith

/-- Of a midpoint `n` factors make less than `count` steps. -/
def Spans (n count : Nat) : Prop :=
  (f.growth ^ n - 1) * (((2 * 2 ^ f.fractionBits : Nat) : ℚ) - 1 / 2) < count

/-- Quotients that are few factors apart are rounded to magnitudes that are few ranks apart. -/
theorem nearestRank_le_of_near {n count num den num' den' : Nat} (hbits : 0 < f.fractionBits)
    (hden : 0 < den) (hden' : 0 < den') (h : f.Near n ((num : ℚ) / den) ((num' : ℚ) / den'))
    (hcount : f.Spans n count) : f.nearestRank num' den' ≤ f.nearestRank num den + count := by
  by_contra hlt
  -- Were the rank farther away, a midpoint would lie between the two quotients.
  have hlow := f.midpoint_le hbits hden' (Nat.lt_of_not_le hlt)
  have hhigh := f.le_midpoint hbits hden (Nat.le_refl (f.nearestRank num den))
  have hstep := f.step_pos (f.nearestRank num den)
  have hgrowth : 0 ≤ f.growth ^ n - 1 := by
    have hone : 1 ≤ f.growth := by
      rw [growth, le_add_iff_nonneg_right]
      positivity
    exact sub_nonneg.2 (one_le_pow₀ hone)
  refine absurd (f.midpoint_add_le (f.nearestRank num den) count) (not_le.2 ?_)
  calc f.midpoint (f.nearestRank num den + count)
    _ ≤ (num' : ℚ) / den' := hlow
    _ ≤ f.growth ^ n * ((num : ℚ) / den) := h.le_left
    _ ≤ f.growth ^ n * f.midpoint (f.nearestRank num den) :=
      mul_le_mul_of_nonneg_left hhigh (le_of_lt (pow_pos f.growth_pos n))
    _ = f.midpoint (f.nearestRank num den)
        + (f.growth ^ n - 1) * f.midpoint (f.nearestRank num den) := by ring
    _ ≤ f.midpoint (f.nearestRank num den) + (f.growth ^ n - 1)
        * ((((2 * 2 ^ f.fractionBits : Nat) : ℚ) - 1 / 2) * f.step (f.nearestRank num den)) := by
      rw [add_le_add_iff_left]
      exact mul_le_mul_of_nonneg_left (f.midpoint_le_step _) hgrowth
    _ < f.midpoint (f.nearestRank num den) + count * f.step (f.nearestRank num den) := by
      rw [add_lt_add_iff_left, ← mul_assoc]
      exact mul_lt_mul_of_pos_right hcount hstep

/-- The same in both directions. -/
theorem dist_nearestRank_le {n count num den num' den' : Nat} (hbits : 0 < f.fractionBits)
    (hden : 0 < den) (hden' : 0 < den') (h : f.Near n ((num : ℚ) / den) ((num' : ℚ) / den'))
    (hcount : f.Spans n count) :
    Nat.dist (f.nearestRank num den) (f.nearestRank num' den') ≤ count := by
  have hup := f.nearestRank_le_of_near hbits hden hden' h hcount
  have hdown := f.nearestRank_le_of_near hbits hden' hden h.symm hcount
  rw [Nat.dist]
  omega

/-! ### Products and quotients -/

section
variable {n m count num den r s : Nat} {x y : ℚ}

/-- A product of magnitudes as a quotient of whole numbers, the form in which `product` rounds
it. -/
theorem magnitude_mul (r s : Nat) : f.magnitude r * f.magnitude s
    = ((f.units r * f.units s : Nat) : ℚ) / ((2 ^ (2 * f.unitExponent) : Nat) : ℚ) := by
  rw [magnitude, magnitude, div_mul_div_comm, ← Nat.cast_mul, ← Nat.cast_mul, ← Nat.pow_add,
    Nat.two_mul]

/-- A quotient of magnitudes is that of their units, the form in which `quotient` rounds it. -/
theorem magnitude_div (r s : Nat) :
    f.magnitude r / f.magnitude s = (f.units r : ℚ) / (f.units s : ℚ) :=
  div_div_div_cancel_right₀ (ne_of_gt f.unit_pos) _ _

/-- A magnitude that is near some number is not zero, so its units may stand below a division. -/
theorem units_pos_of_near (h : f.Near n x (f.magnitude r)) : 0 < f.units r := by
  refine Nat.pos_of_ne_zero fun hzero => ne_of_gt h.pos_right ?_
  rw [magnitude, hzero, Nat.cast_zero, zero_div]

section
variable (hbits : 0 < f.fractionBits) (h : f.Near n x (f.magnitude r))
  (h' : f.Near m y (f.magnitude s))
include hbits h h'

/-- Where the factors are near, the product is rounded to a magnitude few ranks away. -/
theorem dist_product_le (hden : 0 < den) (hvalue : (num : ℚ) / den = x * y)
    (hcount : f.Spans (n + m) count) :
    Nat.dist (f.nearestRank num den) (f.product r s) ≤ count := by
  have hnear := h.mul h'
  rw [← hvalue, magnitude_mul] at hnear
  exact f.dist_nearestRank_le hbits hden (Nat.two_pow_pos _) hnear hcount

/-- Where dividend and divisor are near, so is the quotient. -/
theorem dist_quotient_le (hden : 0 < den) (hvalue : (num : ℚ) / den = x / y)
    (hcount : f.Spans (n + m) count) :
    Nat.dist (f.nearestRank num den) (f.quotient r s) ≤ count := by
  have hnear := h.div h'
  rw [← hvalue, magnitude_div] at hnear
  exact f.dist_nearestRank_le hbits hden (f.units_pos_of_near h') hnear hcount

/-- A product is not rounded above a magnitude if it stays below it when its factors grow. -/
theorem product_le_of_near {rank : Nat} (hle : f.growth ^ (n + m) * (x * y) ≤ f.magnitude rank) :
    f.product r s ≤ rank := by
  have hnear := h.mul h'
  rw [magnitude_mul] at hnear
  calc f.product r s
    _ ≤ f.nearestRank (f.units rank) (2 ^ f.unitExponent) :=
      f.nearestRank_mono hbits (Nat.two_pow_pos _) (Nat.two_pow_pos _)
        (le_trans hnear.le_left hle)
    _ = rank := f.nearestRank_units rank

end

/-- A bound that stays below a magnitude in `n` factors. -/
theorem growth_pow_mul_le {most rank : Nat}
    (h : (2 * 2 ^ f.fractionBits + 1) ^ n * most * 2 ^ f.unitExponent
      ≤ f.units rank * (2 * 2 ^ f.fractionBits) ^ n) :
    f.growth ^ n * (most : ℚ) ≤ f.magnitude rank := by
  have hparts : (0 : ℚ) < ((2 * 2 ^ f.fractionBits : Nat) : ℚ) :=
    Nat.cast_pos.2 (Nat.mul_pos Nat.two_pos (Nat.two_pow_pos _))
  rw [growth, one_add_div (ne_of_gt hparts), div_pow, div_mul_eq_mul_div, magnitude,
    div_le_div_iff₀ (pow_pos hparts n) f.unit_pos]
  exact_mod_cast h

end

end JsonDoc.Number.Format
