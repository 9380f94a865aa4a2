import JsonDoc.Json.Numeral
import JsonDoc.Proofs.Number.Error
import JsonDoc.Proofs.Number.Shortest

/-!
# `JsonDoc.Proofs.Json.Scaled`: significands scaled by rounded powers of ten

The reader rounds a significand, and then its product or quotient with a power of ten that was
rounded as well. Where neither has more than 53 bits, only the last of the three roundings does
anything, and the numeral is rounded correctly (`scaledRank?_of_exact`). Otherwise the two factors
are one rounding away each, which is worth two ranks (`dist_scaledRank?_le_two`). Below `10 ^ -308`
there are two divisions, and the quotient of the first one can be subnormal
(`dist_scaledRank?_le_seven`).

A product can be too large for a numeral that is not: `17976931348623158 · 10 ^ 292` is one. The
numerals that are written are not affected (`exists_scaledRank?`), since none of them is above the
digits of the largest number, `17976931348623157 · 10 ^ 292` (`magnitude_shortest_le`).
-/

set_option autoImplicit false

namespace JsonDoc.Json

open Number

/-! ### Exact factors -/

/-- A significand of at most 53 bits is a number of double precision. -/
theorem units_significand {significand : Nat} (h : significand ≤ 2 ^ 53) :
    binary64.units (binary64.nearestRank significand 1)
      = significand * 2 ^ binary64.unitExponent := by
  rcases Nat.lt_or_eq_of_le h with hlt | rfl
  · have hunits := binary64.units_nearestRank_shifted hlt 0
    rwa [Nat.pow_zero, Nat.mul_one] at hunits
  · have hunits := @Format.units_nearestRank_shifted binary64 1 (by decide) 53
    rwa [Nat.one_mul] at hunits

/-- A power of ten up to `10 ^ 22` is exact: without its power of two it has at most 53 bits. -/
theorem units_powerOfTen {k : Nat} (h : k ≤ 22) :
    binary64.units (powerOfTen k) = 10 ^ k * 2 ^ binary64.unitExponent := by
  have hfive : 5 ^ k < 2 * 2 ^ binary64.fractionBits :=
    Nat.lt_of_le_of_lt (Nat.pow_le_pow_right (by decide) h) (by decide)
  have hunits := binary64.units_nearestRank_shifted hfive k
  rwa [← Nat.mul_pow] at hunits

section
variable {r p num den : Nat}

/-- The product of two whole numbers is the rounded product. -/
theorem product_of_exact (hr : binary64.units r = num * 2 ^ binary64.unitExponent)
    (hp : binary64.units p = den * 2 ^ binary64.unitExponent) :
    binary64.product r p = binary64.nearestRank (num * den) 1 := by
  rw [Format.product, hr, hp]
  refine binary64.nearestRank_congr (Nat.two_pow_pos _) Nat.one_pos ?_
  rw [Nat.mul_comm 2, Nat.pow_mul, Nat.pow_two]
  ring

/-- The quotient of two whole numbers is the rounded quotient. -/
theorem quotient_of_exact
    (hr : binary64.units r = num * 2 ^ binary64.unitExponent)
    (hp : binary64.units p = den * 2 ^ binary64.unitExponent) :
    binary64.quotient r p = binary64.nearestRank num den := by
  rw [Format.quotient, hr, hp, binary64.nearestRank_mul_right _ _ (Nat.two_pow_pos _)]

end

/-- A numeral of two factors of at most 53 bits is rounded correctly. -/
theorem scaledRank?_of_exact {significand : Nat} {exponent : Int} (hs : significand ≤ 2 ^ 53)
    (hlow : -22 ≤ exponent) (hhigh : exponent ≤ 22)
    (hfinite : Decimal.nearestRank binary64 significand exponent < binary64.magnitudes) :
    scaledRank? significand exponent
      = some (Decimal.nearestRank binary64 significand exponent) := by
  cases exponent with
  | ofNat k =>
    have hk : k ≤ 22 := Int.ofNat_le.1 hhigh
    have hrange : k ≤ binary64.exponents := Nat.le_trans hk (by decide)
    rw [Decimal.nearestRank_ofNat binary64 significand hrange] at hfinite ⊢
    rw [scaledRank?, if_pos (by omega),
      product_of_exact (units_significand hs) (units_powerOfTen hk), if_pos hfinite]
  | negSucc below =>
    have hk : below + 1 ≤ 22 := by omega
    rw [Decimal.nearestRank_negSucc, scaledRank?, if_pos (by omega),
      quotient_of_exact (units_significand hs) (units_powerOfTen hk)]

/-! ### Values -/

/-- The digits of the largest number, to be scaled by `10 ^ 292`. -/
def largestDigits : Nat := 17976931348623157

/-- The first sixteen of them, to be scaled by `10 ^ 293`. -/
def sixteenDigits : Nat := 1797693134862315

/-- What is settled by computing with the numbers of double precision. -/
structure Computed : Prop where
  /-- `10 ^ -308`, the quotient of one, is more than a third of a normal number. -/
  firstQuotient : (2 * 2 ^ binary64.fractionBits + 3) * binary64.units (powerOfTen 308)
    ≤ 3 * (2 * (binary64.units (binary64.nearestRank 1 1) * 2 ^ binary64.unitExponent))
  /-- `10 ^ 17 / 10 ^ 617` is less than half of the smallest number. -/
  far : 2 * (10 ^ 17 * 2 ^ binary64.unitExponent) < 10 ^ 617
  significand : binary64.nearestRank (10 ^ 17) 1 < binary64.magnitudes
  room : 10 ^ 17 * 10 ^ 291 ≤ sixteenDigits * 10 ^ 293
  /-- The first sixteen digits of the largest number stay below it in two roundings. -/
  sixteen : (2 * 2 ^ binary64.fractionBits + 1) ^ 2 * (sixteenDigits * 10 ^ 293)
      * 2 ^ binary64.unitExponent
    ≤ binary64.units (binary64.magnitudes - 1) * (2 * 2 ^ binary64.fractionBits) ^ 2
  sixteen_le : sixteenDigits * 10 ^ 293 ≤ largestDigits * 10 ^ 292
  largest : binary64.product (binary64.nearestRank largestDigits 1) (powerOfTen 292)
    < binary64.magnitudes
  /-- The midpoint below the largest number. -/
  below : binary64.units (binary64.magnitudes - 2) + binary64.units (binary64.magnitudes - 2 + 1)
    ≤ largestDigits * 10 ^ 292 * (2 * 2 ^ binary64.unitExponent)
  /-- The midpoint above it. -/
  above : binary64.units (binary64.magnitudes - 1) + binary64.units (binary64.magnitudes - 1 + 1)
    ≤ (sixteenDigits * 10 + 9) * 10 ^ 292 * (2 * 2 ^ binary64.unitExponent)
  leading : binary64.leading (binary64.magnitudes - 1) = 308
  shortest : shortestAt? .even ⟨binary64.magnitudes - 1, by decide⟩ 17 = some (largestDigits, 292)

/-- The facts on powers of ten that are computed, all at once. -/
theorem computed : Computed := by
  constructor <;> decide +kernel

/-! ### Rounded factors -/

/-- Rounding keeps the order of whole numbers. -/
theorem nearestRank_whole_mono {n m : Nat} (h : n ≤ m) :
    binary64.nearestRank n 1 ≤ binary64.nearestRank m 1 := by
  refine binary64.nearestRank_mono (by decide) Nat.one_pos Nat.one_pos ?_
  exact div_le_div_of_nonneg_right (Nat.cast_le.2 h) (Nat.cast_nonneg _)

/-- A positive whole number is rounded by one factor. -/
theorem near_whole {n : Nat} (hpos : 0 < n) :
    binary64.Near 1 n (binary64.magnitude (binary64.nearestRank n 1)) := by
  have hunits : (2 * 2 ^ binary64.fractionBits + 1) * 1
      ≤ 1 * (2 * (n * 2 ^ binary64.unitExponent)) := by
    rw [Nat.mul_one, Nat.one_mul]
    have hone : 2 ^ (binary64.fractionBits + 1) ≤ 2 ^ binary64.unitExponent :=
      Nat.pow_le_pow_right Nat.two_pos (by decide)
    have hn := Nat.le_mul_of_pos_left (2 ^ binary64.unitExponent) hpos
    have hpow := Nat.two_pow_pos binary64.fractionBits
    rw [Nat.pow_succ] at hone
    omega
  have hnear := binary64.near_nearestRank Nat.one_pos Nat.one_pos hunits
  rwa [Nat.cast_one, div_one] at hnear

/-- Every power of ten is one rounding away from the magnitude that stands for it. -/
theorem near_powerOfTen (k : Nat) :
    binary64.Near 1 ((10 ^ k : Nat) : ℚ) (binary64.magnitude (powerOfTen k)) :=
  near_whole (Nat.pow_pos (by decide))

/-- Two factors move a midpoint by less than two steps. -/
theorem spans_two : binary64.Spans 2 2 := by
  norm_num [Format.Spans, Format.growth, binary64]

/-- Six factors, as two divisions in a row need them, move it by less than seven. -/
theorem spans_six : binary64.Spans 6 7 := by
  norm_num [Format.Spans, Format.growth, binary64]

/-- A division by a power of ten can be done in two steps. -/
theorem div_pow_split (significand : Nat) {k l : Nat} (h : l ≤ k) :
    (significand : ℚ) / ((10 ^ k : Nat) : ℚ)
      = significand / ((10 ^ l : Nat) : ℚ) / ((10 ^ (k - l) : Nat) : ℚ) := by
  rw [div_div, ← Nat.cast_mul, ← Nat.pow_add, Nat.add_sub_cancel' h]

section
variable {significand k : Nat} (hpos : 0 < significand)
include hpos

/-- One product. -/
theorem dist_multiplication_le : Nat.dist (binary64.nearestRank (significand * 10 ^ k) 1)
    (binary64.product (binary64.nearestRank significand 1) (powerOfTen k)) ≤ 2 := by
  refine binary64.dist_product_le (by decide) (near_whole hpos) (near_powerOfTen k) Nat.one_pos ?_
    spans_two
  rw [Nat.cast_one, div_one, Nat.cast_mul]

/-- One division. -/
theorem dist_division_le : Nat.dist (binary64.nearestRank significand (10 ^ k))
    (binary64.quotient (binary64.nearestRank significand 1) (powerOfTen k)) ≤ 2 :=
  binary64.dist_quotient_le (by decide) (near_whole hpos) (near_powerOfTen k)
    (Nat.pow_pos (by decide)) rfl spans_two

/-- The quotient by the largest power of ten is hardly below the normal numbers. -/
theorem near_firstQuotient :
    binary64.Near 5 ((significand : ℚ) / ((10 ^ 308 : Nat) : ℚ)) (binary64.magnitude
      (binary64.quotient (binary64.nearestRank significand 1) (powerOfTen 308))) := by
  have hunits : (2 * 2 ^ binary64.fractionBits + 3) * binary64.units (powerOfTen 308)
      ≤ 3 * (2 * (binary64.units (binary64.nearestRank significand 1)
        * 2 ^ binary64.unitExponent)) := by
    have hmono := binary64.units_strictMono.monotone (nearestRank_whole_mono hpos)
    exact Nat.le_trans computed.firstQuotient
      (Nat.mul_le_mul_left _ (Nat.mul_le_mul_left _ (Nat.mul_le_mul_right _ hmono)))
  have hexact := (near_whole hpos).div (near_powerOfTen 308)
  have hrounded := binary64.near_nearestRank (n := 3) (by decide)
    (binary64.units_pos_of_near (near_powerOfTen 308)) hunits
  rw [← binary64.magnitude_div] at hrounded
  exact hexact.trans hrounded

/-- Two divisions. -/
theorem dist_twoDivisions_le (hk : 308 ≤ k) :
    Nat.dist (binary64.nearestRank significand (10 ^ k))
      (binary64.quotient
        (binary64.quotient (binary64.nearestRank significand 1) (powerOfTen 308))
        (powerOfTen (k - 308))) ≤ 7 := by
  have hsplit := div_pow_split significand hk
  exact binary64.dist_quotient_le (by decide) (near_firstQuotient hpos)
    (near_powerOfTen (k - 308)) (Nat.pow_pos (by decide)) hsplit spans_six

end

/-- Numerals far below the smallest number are rounded to zero. -/
theorem nearestRank_eq_zero_of_far {significand most k least : Nat} (hs : significand ≤ most)
    (hk : least ≤ k) (hfar : 2 * (most * 2 ^ binary64.unitExponent) < 10 ^ least) :
    binary64.nearestRank significand (10 ^ k) = 0 := by
  refine binary64.nearestRank_eq_zero ?_
  calc 2 * (significand * 2 ^ binary64.unitExponent)
    _ ≤ 2 * (most * 2 ^ binary64.unitExponent) :=
      Nat.mul_le_mul_left 2 (Nat.mul_le_mul_right _ hs)
    _ < 10 ^ least := hfar
    _ ≤ 10 ^ k := Nat.pow_le_pow_right (by decide) hk

section
variable {significand read : Nat} {exponent : Int} (hpos : 0 < significand)
  (hread : scaledRank? significand exponent = some read)
include hpos hread

/-- A numeral is read as a number at most two ranks from the one that it rounds to, if its power of
ten is not split. -/
theorem dist_scaledRank?_le_two (hexponent : -308 ≤ exponent) :
    Nat.dist (Decimal.nearestRank binary64 significand exponent) read ≤ 2 := by
  cases exponent with
  | ofNat k =>
    rw [scaledRank?] at hread
    split at hread
    · next hk =>
      rw [Decimal.nearestRank_ofNat binary64 significand (Nat.le_trans hk (by decide))]
      dsimp only at hread
      split at hread
      · rw [← Option.some.inj hread]
        exact dist_multiplication_le hpos
      · cases hread
    · split at hread
      · next hzero =>
        -- Only zero is accepted with a power that large.
        have hnear := near_whole hpos
        rw [hzero, binary64.magnitude_zero] at hnear
        exact absurd hnear.pos_right (lt_irrefl 0)
      · cases hread
  | negSucc below =>
    rw [scaledRank?, if_pos (by omega)] at hread
    cases hread
    rw [Decimal.nearestRank_negSucc]
    exact dist_division_le hpos

/-- In any case it is at most seven ranks away. -/
theorem dist_scaledRank?_le_seven (hs : significand ≤ 10 ^ 17) :
    Nat.dist (Decimal.nearestRank binary64 significand exponent) read ≤ 7 := by
  rcases Int.lt_or_le exponent (-308) with hlow | hhigh
  · cases exponent with
    | ofNat k => exact absurd hlow (Int.not_lt.2 (Int.le_trans (by decide) (Int.natCast_nonneg k)))
    | negSucc below =>
      have hk : 308 < below + 1 := by omega
      rw [Decimal.nearestRank_negSucc]
      simp only [scaledRank?, if_neg (Nat.not_le.2 hk)] at hread
      split at hread
      · rw [← Option.some.inj hread]
        exact dist_twoDivisions_le hpos (Nat.le_of_lt hk)
      · have hzero := nearestRank_eq_zero_of_far hs (show 617 ≤ below + 1 by omega) computed.far
        rw [hzero, ← Option.some.inj hread]
        decide
  · exact Nat.le_trans (dist_scaledRank?_le_two hpos hread hhigh) (by decide)

end

/-! ### Numbers that are not too large -/

section
variable {r r' p p' : Nat}

/-- Larger exponents have larger powers. -/
theorem powerOfTen_mono {k l : Nat} (h : k ≤ l) : powerOfTen k ≤ powerOfTen l :=
  nearestRank_whole_mono (Nat.pow_le_pow_right (by decide) h)

/-- Larger factors have larger products, after rounding as well. -/
theorem product_mono (hr : r ≤ r') (hp : p ≤ p') :
    binary64.product r p ≤ binary64.product r' p' := by
  have hunits := Nat.mul_le_mul (binary64.units_strictMono.monotone hr)
    (binary64.units_strictMono.monotone hp)
  have hden : 0 < 2 ^ (2 * binary64.unitExponent) := Nat.two_pow_pos _
  refine binary64.nearestRank_mono (by decide) hden hden ?_
  exact div_le_div_of_nonneg_right (Nat.cast_le.2 hunits) (Nat.cast_nonneg _)

/-- To divide by a number of one or more makes nothing larger. -/
theorem quotient_le (hp : powerOfTen 0 ≤ p) : binary64.quotient r p ≤ r := by
  have hunits : 2 ^ binary64.unitExponent ≤ binary64.units p := by
    have h := binary64.units_strictMono.monotone hp
    rwa [units_powerOfTen (Nat.zero_le 22), Nat.pow_zero, Nat.one_mul] at h
  have hone : 0 < 2 ^ binary64.unitExponent := Nat.two_pow_pos _
  have hpos := Nat.lt_of_lt_of_le hone hunits
  calc binary64.quotient r p
    _ ≤ binary64.nearestRank (binary64.units r) (2 ^ binary64.unitExponent) := by
      refine binary64.nearestRank_mono (by decide) hpos hone ?_
      exact div_le_div_of_nonneg_left (Nat.cast_nonneg _) (Nat.cast_pos.2 hone)
        (Nat.cast_le.2 hunits)
    _ = r := binary64.nearestRank_units r

end

/-- The largest significand and exponent at which a number is read are those of one whole number. -/
theorem magnitude_largestDigits :
    Decimal.magnitude largestDigits 292 = ((largestDigits * 10 ^ 292 : Nat) : ℚ) := by
  have hmost := Decimal.magnitude_natCast largestDigits 292
  rwa [Nat.cast_ofNat] at hmost

/-- Below the first sixteen digits there is room for two roundings. -/
theorem product_lt_of_sixteen {significand k : Nat} (hpos : 0 < significand)
    (hle : significand * 10 ^ k ≤ sixteenDigits * 10 ^ 293) :
    binary64.product (binary64.nearestRank significand 1) (powerOfTen k) < binary64.magnitudes := by
  have hmost := binary64.growth_pow_mul_le computed.sixteen
  have hproduct := binary64.product_le_of_near (by decide) (near_whole hpos) (near_powerOfTen k)
    (le_trans (mul_le_mul_of_nonneg_left ?_ (le_of_lt (pow_pos binary64.growth_pos _))) hmost)
  · exact Nat.lt_of_le_of_lt hproduct (by decide)
  · rw [← Nat.cast_mul]
    exact Nat.cast_le.2 hle

/-- A numeral with more zeros at its end than a bound has is held against fewer digits. -/
theorem mul_pow_le_of_lt {significand bound k l m : Nat} (hl : l < k) (hm : l + 1 = m)
    (hle : significand * 10 ^ k ≤ (bound * 10 + 9) * 10 ^ l) :
    significand * 10 ^ k ≤ bound * 10 ^ m := by
  subst hm
  obtain ⟨j, rfl⟩ := Nat.exists_eq_add_of_lt hl
  have hsplit : significand * 10 ^ (l + j + 1) = significand * 10 ^ j * 10 * 10 ^ l := by
    rw [Nat.pow_succ, Nat.pow_add]
    ring
  rw [hsplit] at hle ⊢
  have hdigits := Nat.le_of_mul_le_mul_right hle (Nat.pow_pos (by decide))
  have hbound : significand * 10 ^ j ≤ bound := by omega
  rw [Nat.pow_succ, Nat.mul_assoc _ 10, Nat.mul_comm (10 ^ l)]
  exact Nat.mul_le_mul_right _ hbound

/-- The products of numerals that are not above the largest number are not too large. -/
theorem product_lt {significand k : Nat} (hpos : 0 < significand) (hs : significand ≤ 10 ^ 17)
    (hle : significand * 10 ^ k ≤ largestDigits * 10 ^ 292) :
    binary64.product (binary64.nearestRank significand 1) (powerOfTen k) < binary64.magnitudes := by
  rcases Nat.lt_trichotomy k 292 with hless | heq | hmore
  · have hpow := Nat.pow_le_pow_right (n := 10) (by decide) (Nat.le_of_lt_succ hless)
    exact product_lt_of_sixteen hpos (Nat.le_trans (Nat.mul_le_mul hs hpow) computed.room)
  · have hlargest := computed.largest
    rw [← heq] at hle hlargest
    have hdigits := Nat.le_of_mul_le_mul_right hle (Nat.pow_pos (by decide))
    exact Nat.lt_of_le_of_lt (product_mono (nearestRank_whole_mono hdigits) (Nat.le_refl _))
      hlargest
  · have hbound : largestDigits ≤ sixteenDigits * 10 + 9 := by decide
    have hfew := mul_pow_le_of_lt (m := 293) hmore rfl
      (Nat.le_trans hle (Nat.mul_le_mul_right _ hbound))
    exact product_lt_of_sixteen hpos hfew

/-- A numeral that is not above the largest number is scaled by at most `10 ^ 308`. -/
theorem exponent_le_of_magnitude_le {significand : Nat} {exponent : Int} (hpos : 0 < significand)
    (hle : Decimal.magnitude significand exponent ≤ Decimal.magnitude largestDigits 292) :
    exponent ≤ 308 := by
  have hone : (10 : ℚ) ^ exponent ≤ Decimal.magnitude significand exponent :=
    le_mul_of_one_le_left (le_of_lt (zpow_pos (by norm_num) _)) (by exact_mod_cast hpos)
  have hmost : Decimal.magnitude largestDigits 292 < 10 ^ (309 : Int) := by
    have hdigits : (largestDigits : ℚ) < 10 ^ (17 : Int) := by
      rw [largestDigits]
      norm_num
    rw [Decimal.magnitude, show (309 : Int) = 17 + 292 from rfl, zpow_add₀ (by norm_num)]
    exact mul_lt_mul_of_pos_right hdigits (zpow_pos (by norm_num) _)
  have hlt := (zpow_lt_zpow_iff_right₀ (by norm_num)).1 (lt_of_le_of_lt (le_trans hone hle) hmost)
  omega

/-- A numeral that is not above the largest number, of seventeen digits at most, is a number. -/
theorem exists_scaledRank? {significand : Nat} {exponent : Int} (hpos : 0 < significand)
    (hs : significand ≤ 10 ^ 17)
    (hle : Decimal.magnitude significand exponent ≤ Decimal.magnitude largestDigits 292) :
    ∃ rank, scaledRank? significand exponent = some rank ∧ rank < binary64.magnitudes := by
  have hrank : binary64.nearestRank significand 1 < binary64.magnitudes :=
    Nat.lt_of_le_of_lt (nearestRank_whole_mono hs) computed.significand
  have hexponent := exponent_le_of_magnitude_le hpos hle
  cases exponent with
  | ofNat k =>
    have hk : k ≤ 308 := Int.ofNat_le.1 hexponent
    have hle : significand * 10 ^ k ≤ largestDigits * 10 ^ 292 := by
      rwa [magnitude_largestDigits, Int.ofNat_eq_natCast, Decimal.magnitude_natCast,
        Nat.cast_le] at hle
    -- The one case that can overflow: a product.
    have hlt := product_lt hpos hs hle
    exact ⟨_, by rw [scaledRank?, if_pos hk, if_pos hlt], hlt⟩
  | negSucc below =>
    -- A quotient is no larger than the significand it is taken of.
    have hquotient (k : Nat) : binary64.quotient (binary64.nearestRank significand 1) (powerOfTen k)
        < binary64.magnitudes :=
      Nat.lt_of_le_of_lt (quotient_le (powerOfTen_mono (Nat.zero_le k))) hrank
    simp only [scaledRank?]
    split
    · exact ⟨_, rfl, hquotient _⟩
    · split
      · exact ⟨_, rfl, Nat.lt_of_le_of_lt (quotient_le (powerOfTen_mono (Nat.zero_le _)))
          (hquotient 308)⟩
      · exact ⟨0, rfl, by decide⟩

/-! ### What is written -/

/-- The numerals below the midpoint under the largest number are below its digits. -/
theorem midpoint_le_largest :
    binary64.midpoint (binary64.magnitudes - 2) ≤ Decimal.magnitude largestDigits 292 := by
  rw [magnitude_largestDigits]
  exact binary64.midpoint_le_natCast computed.below

/-- Fewer digits than seventeen are at most the first sixteen of the largest number, as the next
numeral of so few digits is above the midpoint. -/
theorem magnitude_le_largest {digits k : Nat} (hk : 292 < k) (hmost : k ≤ 308)
    (hrank : Decimal.nearestRank binary64 digits k = binary64.magnitudes - 1) :
    Decimal.magnitude digits k ≤ Decimal.magnitude largestDigits 292 := by
  have hmidpoint : binary64.midpoint (binary64.magnitudes - 1)
      ≤ (((sixteenDigits * 10 + 9) * 10 ^ 292 : Nat) : ℚ) :=
    binary64.midpoint_le_natCast computed.above
  have hwhole : binary64.nearestRank (digits * 10 ^ k) 1 = binary64.magnitudes - 1 :=
    (Decimal.nearestRank_ofNat binary64 digits (Nat.le_trans hmost (by decide))).symm.trans hrank
  have hle := le_trans (binary64.le_midpoint (by decide) Nat.one_pos (Nat.le_of_eq hwhole))
    hmidpoint
  rw [Nat.cast_one, div_one, Nat.cast_le] at hle
  rw [Decimal.magnitude_natCast, magnitude_largestDigits, Nat.cast_le]
  exact Nat.le_trans (mul_pow_le_of_lt (m := 293) hk rfl hle) computed.sixteen_le

/-- The shortest digits of the largest number: all seventeen, or fewer. -/
theorem magnitude_shortest_largest {rank : Rank} (h : rank.val = binary64.magnitudes - 1) :
    Decimal.magnitude (shortest .even rank).1 (shortest .even rank).2
      ≤ Decimal.magnitude largestDigits 292 := by
  have hpos : 0 < rank.val := h ▸ (by decide)
  have hback := nearestRank_shortest .even hpos
  obtain ⟨n, hn, hcount⟩ := exists_shortestAt? .even hpos
  cases hshortest : shortest .even rank with
  | mk digits exponent =>
    rw [hshortest] at hcount hback
    rcases Nat.lt_or_eq_of_le (Nat.le_of_lt_succ hn) with hless | rfl
    · have hexponent := exponent_of_shortestAt? hcount
      rw [h, computed.leading] at hexponent
      obtain ⟨k, rfl⟩ := Int.eq_ofNat_of_zero_le (show 0 ≤ exponent by omega)
      exact magnitude_le_largest (by omega) (by omega) (hback.trans h)
    · obtain rfl : rank = ⟨binary64.magnitudes - 1, by decide⟩ := Fin.ext h
      cases hcount.symm.trans computed.shortest
      exact le_refl _

/-- The shortest digits of a number are not above those of the largest one. -/
theorem magnitude_shortest_le {rank : Rank} (hpos : 0 < rank.val) :
    Decimal.magnitude (shortest .even rank).1 (shortest .even rank).2
      ≤ Decimal.magnitude largestDigits 292 := by
  have hlt := rank.isLt
  rcases Nat.lt_or_ge rank.val (binary64.magnitudes - 1) with hless | hge
  · have hrank := nearestRank_shortest .even hpos
    have hexponent := Decimal.exponent_le_of_nearestRank binary64 hrank hpos hlt
    rw [Decimal.nearestRank_eq binary64 _ hexponent] at hrank
    rw [Decimal.magnitude_eq_div]
    refine le_trans (binary64.le_midpoint (by decide) (Nat.pow_pos (by decide)) ?_)
      midpoint_le_largest
    omega
  · exact magnitude_shortest_largest (Nat.le_antisymm (Nat.le_sub_one_of_lt hlt) hge)

end JsonDoc.Json
