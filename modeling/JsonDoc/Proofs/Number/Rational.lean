import JsonDoc.Proofs.Number.ReadBack
import JsonDoc.Proofs.Number.Spacing
import Mathlib.Algebra.Order.Field.Rat
import Mathlib.Data.Nat.Cast.Order.Field
import Mathlib.Order.Compare
import Mathlib.Tactic.FieldSimp
import Mathlib.Tactic.Linarith
import Mathlib.Tactic.NormNum

/-!
# `JsonDoc.Proofs.Number.Rational`: numbers as rationals

A finite number of double precision denotes a rational, `Binary64.toRat?`; the numbers that are not
finite denote none. What is asked of finite numbers is answered by the rationals:

* `Binary64.toInt?_eq_some_iff`: a number is an integer if its rational is that integer.
* `Binary64.order_eq_compare`: numbers compare as their rationals do. They are compared by rank,
  and the magnitudes grow with their ranks.
* `Binary64.toInt64_of_toInt?`: an integer that fits in 64 bits is cut off to itself.
-/

set_option autoImplicit false

namespace JsonDoc.Number

/-- The rational of the magnitude of a rank. -/
def Format.magnitude (f : Format) (rank : Nat) : ℚ :=
  (f.units rank : ℚ) / ((2 ^ f.unitExponent : Nat) : ℚ)

/-- The rational that a finite number denotes. -/
def Binary64.toRat? : Binary64 → Option ℚ
  | finite negative rank =>
    some (if negative then -binary64.magnitude rank else binary64.magnitude rank)
  | _ => none

/-- The rational `digits · 10 ^ exponent`. -/
def Decimal.magnitude (digits : Nat) (exponent : Int) : ℚ := digits * 10 ^ exponent

/-- The rational that a numeral denotes. -/
def Decimal.toRat (d : Decimal) : ℚ :=
  if d.negative then -magnitude d.digits d.exponent else magnitude d.digits d.exponent

namespace Format

variable (f : Format)

/-- One is a positive number of units. -/
theorem unit_pos : (0 : ℚ) < ((2 ^ f.unitExponent : Nat) : ℚ) :=
  Nat.cast_pos.2 (Nat.two_pow_pos _)

/-- Rank zero is zero. -/
theorem magnitude_zero : f.magnitude 0 = 0 := by
  rw [magnitude, units_zero, Nat.cast_zero, zero_div]

/-- Magnitudes grow with their ranks. -/
theorem magnitude_strictMono : StrictMono f.magnitude := fun _ _ h =>
  div_lt_div_of_pos_right (Nat.cast_lt.2 (f.units_strictMono h)) f.unit_pos

/-- Magnitudes carry no sign. -/
theorem magnitude_nonneg (rank : Nat) : 0 ≤ f.magnitude rank :=
  div_nonneg (Nat.cast_nonneg _) (le_of_lt f.unit_pos)

/-- A magnitude is a whole number if it is that many units of one. -/
theorem magnitude_eq_natCast {rank whole : Nat} :
    f.magnitude rank = whole ↔ f.units rank = whole * 2 ^ f.unitExponent := by
  rw [magnitude, div_eq_iff (ne_of_gt f.unit_pos), ← Nat.cast_mul, Nat.cast_inj]

end Format

/-- A power of ten as the quotient of two whole ones. -/
theorem zpow_ten_eq (exponent : Int) : (10 : ℚ) ^ exponent
    = ((10 ^ exponent.toNat : Nat) : ℚ) / ((10 ^ (-exponent).toNat : Nat) : ℚ) := by
  have hsplit : exponent = (exponent.toNat : Int) - ((-exponent).toNat : Int) := by omega
  conv_lhs => rw [hsplit, zpow_sub₀ (by norm_num), zpow_natCast, zpow_natCast]
  push_cast
  rfl

/-- A numeral as the quotient of whole numbers that rounding is defined on. -/
theorem Decimal.magnitude_eq_div (digits : Nat) (exponent : Int) : Decimal.magnitude digits exponent
    = ((digits * 10 ^ exponent.toNat : Nat) : ℚ) / ((10 ^ (-exponent).toNat : Nat) : ℚ) := by
  rw [magnitude, zpow_ten_eq, Nat.cast_mul, mul_div_assoc]

/-- Without a negative power of ten a numeral is a whole number. -/
theorem Decimal.magnitude_natCast (digits power : Nat) :
    Decimal.magnitude digits (power : Int) = ((digits * 10 ^ power : Nat) : ℚ) := by
  rw [magnitude, zpow_natCast, Nat.cast_mul, Nat.cast_pow, Nat.cast_ofNat]

/-- Zeros behind the digits do what the exponent does. -/
theorem Decimal.magnitude_mul_pow (digits zeros : Nat) (exponent : Int) :
    Decimal.magnitude (digits * 10 ^ zeros) exponent
      = Decimal.magnitude digits (exponent + zeros) := by
  rw [magnitude, magnitude, zpow_add₀ (by norm_num), zpow_natCast, Nat.cast_mul, Nat.cast_pow,
    Nat.cast_ofNat]
  ring

/-- Numerals of one value are rounded alike, unless they are far above the largest number. -/
theorem Decimal.nearestRank_congr (f : Format) {digits digits' : Nat} {exponent exponent' : Int}
    (hle : exponent ≤ f.exponents) (hle' : exponent' ≤ f.exponents)
    (h : magnitude digits exponent = magnitude digits' exponent') :
    nearestRank f digits exponent = nearestRank f digits' exponent' := by
  have hten (n : Nat) : 0 < 10 ^ n := Nat.pow_pos (by decide)
  have hcast (n : Nat) : ((10 ^ n : Nat) : ℚ) ≠ 0 := Nat.cast_ne_zero.2 (Nat.ne_of_gt (hten n))
  rw [magnitude_eq_div, magnitude_eq_div, div_eq_div_iff (hcast _) (hcast _), ← Nat.cast_mul,
    ← Nat.cast_mul, Nat.cast_inj] at h
  rw [nearestRank_eq f digits hle, nearestRank_eq f digits' hle']
  exact f.nearestRank_congr (hten _) (hten _) h

/-- A function that grows from zero keeps the order of signed numbers. -/
theorem signed_lt_signed_iff {g : Nat → ℚ} (hzero : g 0 = 0) (hg : StrictMono g)
    (negative negative' : Bool) (a b : Nat) :
    (if negative then -(a : Int) else a) < (if negative' then -(b : Int) else b) ↔
      (if negative then -g a else g a) < if negative' then -g b else g b := by
  have hpos (n : Nat) : 0 < g n ↔ 0 < n := by rw [← hzero, hg.lt_iff_lt]
  have hnonneg (n : Nat) : 0 ≤ g n := by
    rw [← hzero]
    exact hg.monotone (Nat.zero_le n)
  cases negative <;> cases negative' <;> simp only [if_true, if_false, Bool.false_eq_true]
  · rw [Nat.cast_lt, hg.lt_iff_lt]
  · -- No number without a minus is below one with a minus.
    have := hnonneg a
    have := hnonneg b
    constructor
    · omega
    · intro h
      linarith
  · -- Signs that differ settle the order unless both numbers are zero.
    constructor
    · intro h
      have := hnonneg a
      have := hnonneg b
      rcases Nat.eq_zero_or_pos a with rfl | ha
      · have := (hpos b).2 (by omega)
        linarith
      · have := (hpos a).2 ha
        linarith
    · intro h
      by_contra hle
      obtain ⟨rfl, rfl⟩ : a = 0 ∧ b = 0 := by omega
      rw [hzero, neg_zero] at h
      exact lt_irrefl 0 h
  · rw [neg_lt_neg_iff, neg_lt_neg_iff, Nat.cast_lt, hg.lt_iff_lt]

namespace Binary64

/-! ### The order -/

/-- Finite numbers compare as their rationals. -/
theorem order_eq_compare {x y : Binary64} {q r : ℚ} (hx : x.toRat? = some q)
    (hy : y.toRat? = some r) : x.order y = some (compare q r) := by
  cases x with
  | finite negative rank =>
    cases y with
    | finite negative' rank' =>
      obtain rfl := Option.some.inj hx
      obtain rfl := Option.some.inj hy
      -- Ranks with their signs are compared, and `signed_lt_signed_iff` takes that to magnitudes.
      have hlt := signed_lt_signed_iff binary64.magnitude_zero binary64.magnitude_strictMono
        negative negative' rank rank'
      have hgt := signed_lt_signed_iff binary64.magnitude_zero binary64.magnitude_strictMono
        negative' negative rank' rank
      rw [order, position?, position?]
      refine congrArg some ?_
      rcases lt_trichotomy (if negative then -(rank.val : Int) else rank.val)
        (if negative' then -(rank'.val : Int) else rank'.val) with h | h | h
      · rw [compare_lt_iff_lt.2 h, compare_lt_iff_lt.2 (hlt.1 h)]
      · have heq := le_antisymm (not_lt.1 (mt hgt.2 (by omega))) (not_lt.1 (mt hlt.2 (by omega)))
        rw [compare_eq_iff_eq.2 h, compare_eq_iff_eq.2 heq]
      · rw [compare_gt_iff_gt.2 h, compare_gt_iff_gt.2 (hgt.1 h)]
    | _ => cases hy
  | _ => cases hx

/-- Numbers that denote rationals are less than each other as these are. -/
theorem lessThan_iff {x y : Binary64} {q r : ℚ} (hx : x.toRat? = some q) (hy : y.toRat? = some r) :
    x.lessThan y = true ↔ q < r := by
  rw [lessThan, order_eq_compare hx hy, Option.any_some, Ordering.isLT_iff_eq_lt,
    compare_lt_iff_lt]

/-- Numbers that denote rationals are at most each other as these are. -/
theorem atMost_iff {x y : Binary64} {q r : ℚ} (hx : x.toRat? = some q) (hy : y.toRat? = some r) :
    x.atMost y = true ↔ q ≤ r := by
  rw [atMost, order_eq_compare hx hy, Option.any_some, Ordering.isLE_iff_ne_gt]
  exact compare_le_iff_le

/-! ### Integers -/

/-- A number that is an integer has a magnitude of that many units of one. -/
theorem exists_whole_of_toInt? {negative : Bool} {rank : Rank} {n : Int}
    (h : (finite negative rank).toInt? = some n) :
    ∃ whole : Nat, binary64.units rank = whole * 2 ^ binary64.unitExponent ∧
      n = if negative then -(whole : Int) else whole := by
  rw [toInt?] at h
  split at h
  · next hwhole =>
    exact ⟨_, (Nat.div_mul_cancel (Nat.dvd_of_mod_eq_zero hwhole)).symm, (Option.some.inj h).symm⟩
  · cases h

/-- A magnitude of so many units of one is that integer, with the sign of the number. -/
theorem toInt?_of_units {negative : Bool} {rank : Rank} {whole : Nat}
    (h : binary64.units rank = whole * 2 ^ binary64.unitExponent) :
    (finite negative rank).toInt? = some (if negative then -(whole : Int) else whole) := by
  rw [toInt?, units, h, if_pos (Nat.mul_mod_left _ _), Nat.mul_div_cancel _ (Nat.two_pow_pos _)]

/-- A number is an integer if its rational is that integer. -/
theorem toInt?_eq_some_iff {x : Binary64} {n : Int} :
    x.toInt? = some n ↔ x.toRat? = some (n : ℚ) := by
  cases x with
  | finite negative rank =>
    constructor
    · intro h
      obtain ⟨whole, hunits, rfl⟩ := exists_whole_of_toInt? h
      rw [toRat?, binary64.magnitude_eq_natCast.2 hunits]
      cases negative <;> simp
    · intro h
      have hrat : (if negative then -binary64.magnitude rank else binary64.magnitude rank) = n :=
        Option.some.inj h
      -- The magnitude is the absolute value of the integer.
      have habs : binary64.magnitude rank = n.natAbs := by
        have hnonneg := binary64.magnitude_nonneg rank
        rw [Nat.cast_natAbs, Int.cast_abs, ← hrat]
        cases negative <;> simp [abs_of_nonneg hnonneg]
      rw [toInt?_of_units (binary64.magnitude_eq_natCast.1 habs), Option.some.injEq,
        ← Int.cast_inj (α := ℚ), ← hrat, habs]
      cases negative <;> simp
  | _ => simp [toInt?, toRat?]

/-- The test for integers asks no more than whether the conversion gives one. -/
theorem isWhole_iff {x : Binary64} : x.isWhole = true ↔ ∃ n, x.toInt? = some n :=
  Option.isSome_iff_exists

/-- An integer that fits in 64 bits is cut off to itself. -/
theorem toInt64_of_toInt? {x : Binary64} {n : Int} (h : x.toInt? = some n) (hlow : -2 ^ 63 ≤ n)
    (hhigh : n < 2 ^ 63) : x.toInt64 = n := by
  cases x with
  | finite negative rank =>
    obtain ⟨whole, hunits, hn⟩ := exists_whole_of_toInt? h
    rw [toInt64, units, hunits, Nat.mul_div_cancel _ (Nat.two_pow_pos _), ← hn]
    omega
  | _ => cases h

/-- The sign is dropped from the rational as well. -/
theorem toRat?_abs {x : Binary64} {q : ℚ} (h : x.toRat? = some q) : x.abs.toRat? = some |q| := by
  cases x with
  | finite negative rank =>
    have hnonneg := binary64.magnitude_nonneg rank
    obtain rfl := Option.some.inj h
    rw [abs, toRat?]
    cases negative <;> simp [abs_of_nonneg hnonneg]
  | _ => cases h

end Binary64

end JsonDoc.Number
