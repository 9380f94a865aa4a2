import JsonDoc.Proofs.Number.Nearest
import Mathlib.Tactic.Positivity

/-!
# `JsonDoc.Proofs.Number.Shortest`: seventeen digits are enough

The search for the shortest digits tries a grid of numerals after the other, each ten times as fine
as the one before. The nearest numeral of the seventeenth grid differs from the magnitude by less
than one part in `2 ^ 54`, so that it reads back (`shortestAt?_seventeen_isSome`), and the exact
expansion behind the search is never needed. What is found has at most seventeen digits
(`digits_le_of_shortest`).
-/

set_option autoImplicit false

namespace JsonDoc.Number

/-! ### The leading digit -/

/-- A positive number is no less than the power of ten of its leading digit. -/
theorem pow_le_of_length_toDigits {n : Nat} (h : 0 < n) :
    10 ^ ((Nat.toDigits 10 n).length - 1) ≤ n := by
  by_contra hlt
  have hpos := Nat.length_toDigits_pos (b := 10) (n := n)
  rcases Nat.eq_zero_or_pos ((Nat.toDigits 10 n).length - 1) with hzero | hone
  · rw [hzero] at hlt
    exact hlt h
  · have hle := (Nat.length_toDigits_le_iff (b := 10) (by decide) hone).2 (Nat.lt_of_not_le hlt)
    omega

/-- A number is below the power of ten that counts its digits. -/
theorem lt_pow_length_toDigits (n : Nat) : n < 10 ^ (Nat.toDigits 10 n).length :=
  (Nat.length_toDigits_le_iff (by decide) Nat.length_toDigits_pos).1 (Nat.le_refl _)

/-- A positive quotient lies between the power of ten of its leading digit and the next one. -/
theorem leadingExponent_spec {num den : Nat} (hnum : 0 < num) (hden : 0 < den) :
    (10 : ℚ) ^ leadingExponent num den ≤ (num : ℚ) / den ∧
      (num : ℚ) / den < 10 ^ (leadingExponent num den + 1) := by
  have hcast : (0 : ℚ) < den := Nat.cast_pos.2 hden
  have hten (k : Nat) : (0 : ℚ) < 10 ^ k := by positivity
  rw [leadingExponent]
  split
  · next hle =>
    obtain ⟨k, hk⟩ : ∃ k, (Nat.toDigits 10 (num / den)).length = k + 1 :=
      Nat.exists_eq_succ_of_ne_zero (Nat.ne_of_gt Nat.length_toDigits_pos)
    have hlow := pow_le_of_length_toDigits (Nat.div_pos hle hden)
    have hhigh := lt_pow_length_toDigits (num / den)
    rw [hk, Nat.add_sub_cancel, Nat.le_div_iff_mul_le hden] at hlow
    rw [hk, Nat.div_lt_iff_lt_mul hden] at hhigh
    rw [hk, show ((k + 1 : Nat) : Int) - 1 = k by omega, ← Nat.cast_succ, zpow_natCast,
      zpow_natCast, le_div_iff₀ hcast, div_lt_iff₀ hcast]
    exact ⟨by exact_mod_cast hlow, by exact_mod_cast hhigh⟩
  · next hlt =>
    -- The digits are those of the whole part of the inverse, but for an exact power of ten.
    obtain ⟨k, hk⟩ : ∃ k, (Nat.toDigits 10 ((den - 1) / num)).length = k + 1 :=
      Nat.exists_eq_succ_of_ne_zero (Nat.ne_of_gt Nat.length_toDigits_pos)
    have hlow := pow_le_of_length_toDigits (Nat.div_pos (show num ≤ den - 1 by omega) hnum)
    have hhigh := lt_pow_length_toDigits ((den - 1) / num)
    rw [hk, Nat.add_sub_cancel, Nat.le_div_iff_mul_le hnum] at hlow
    rw [hk, Nat.div_lt_iff_lt_mul hnum] at hhigh
    rw [hk, show -((k + 1 : Nat) : Int) + 1 = -(k : Int) by omega, zpow_neg, zpow_neg, zpow_natCast,
      zpow_natCast, inv_eq_one_div, inv_eq_one_div, div_le_div_iff₀ (hten _) hcast,
      div_lt_div_iff₀ hcast (hten _), one_mul, mul_comm (num : ℚ), mul_comm (num : ℚ)]
    have hle : den ≤ 10 ^ (k + 1) * num := by omega
    have hlt : 10 ^ k * num < den := by omega
    exact ⟨by exact_mod_cast hle, by exact_mod_cast hlt⟩

/-! ### The two neighbours -/

section
variable {tie : Tie} {num den : Nat}

/-- The neighbour that is tried first is not farther than the other. -/
theorem neighbours_cases (tie : Tie) (num den : Nat) :
    neighbours tie num den = (num / den + 1, num / den) ∧ den ≤ 2 * (num % den) ∨
      neighbours tie num den = (num / den, num / den + 1) ∧ 2 * (num % den) ≤ den := by
  unfold neighbours
  dsimp only
  rcases Decidable.em (2 * (num % den) = den) with htie | htie
  · rw [if_pos htie]
    cases tie with
    | up => exact .inl ⟨rfl, Nat.le_of_eq htie.symm⟩
    | even =>
      dsimp only
      split
      · exact .inl ⟨rfl, Nat.le_of_eq htie.symm⟩
      · exact .inr ⟨rfl, Nat.le_of_eq htie⟩
  · rw [if_neg htie]
    split
    · next hupper => exact .inl ⟨rfl, Nat.le_of_lt (of_decide_eq_true hupper)⟩
    · next hupper => exact .inr ⟨rfl, Nat.le_of_not_lt (by simpa using hupper)⟩

/-- Neither neighbour is above the next whole number. -/
theorem neighbours_le (tie : Tie) (num den : Nat) :
    (neighbours tie num den).1 ≤ num / den + 1 ∧ (neighbours tie num den).2 ≤ num / den + 1 := by
  rcases neighbours_cases tie num den with ⟨h, -⟩ | ⟨h, -⟩ <;> rw [h] <;> simp

/-- The neighbour that is tried first is at most a half away. -/
theorem abs_neighbours_sub_le (hden : 0 < den) :
    2 * |((neighbours tie num den).1 : ℚ) - num / den| ≤ 1 := by
  have hcast : (0 : ℚ) < den := Nat.cast_pos.2 hden
  have hdecomp : (num : ℚ) = den * (num / den : Nat) + (num % den : Nat) := by
    exact_mod_cast (Nat.div_add_mod num den).symm
  have hmod := Nat.mod_lt num hden
  have habs : 2 * |((neighbours tie num den).1 : ℚ) * den - num| ≤ den := by
    rcases neighbours_cases tie num den with ⟨h, hle⟩ | ⟨h, hle⟩
    · have hle : (den : ℚ) ≤ 2 * (num % den : Nat) := by exact_mod_cast hle
      have hmod : ((num % den : Nat) : ℚ) ≤ den := by exact_mod_cast Nat.le_of_lt hmod
      rw [h, Nat.cast_succ, abs_of_nonneg] <;> linarith
    · have hle : 2 * ((num % den : Nat) : ℚ) ≤ den := by exact_mod_cast hle
      have hnonneg : (0 : ℚ) ≤ (num % den : Nat) := Nat.cast_nonneg _
      rw [h, abs_of_nonpos] <;> linarith
  rw [← mul_le_mul_iff_left₀ hcast, one_mul, mul_assoc, ← abs_of_pos hcast, ← abs_mul, sub_mul,
    abs_of_pos hcast, div_mul_cancel₀ _ (ne_of_gt hcast)]
  exact habs

end

/-! ### The grids -/

/-- A quotient by a power of ten, as whole numbers on both sides. -/
theorem div_zpow_ten (num den : Nat) (exponent : Int) :
    ((num * 10 ^ (-exponent).toNat : Nat) : ℚ) / ((den * 10 ^ exponent.toNat : Nat) : ℚ)
      = (num : ℚ) / den / 10 ^ exponent := by
  rw [zpow_ten_eq, Nat.cast_mul, Nat.cast_mul, mul_div_mul_comm, div_div_eq_mul_div, mul_div_assoc]

namespace Format

variable (f : Format) {rank : Nat}

/-- The exponent of the leading digit of a magnitude. -/
def leading (rank : Nat) : Int := leadingExponent (f.units rank) (2 ^ f.unitExponent)

/-- A magnitude in units of the last place of its grid of numerals with `count` digits. -/
def gridValue (rank count : Nat) : ℚ := f.magnitude rank / 10 ^ (f.leading rank + 1 - count)

/-- A positive magnitude has its leading digit where the search looks for it. -/
theorem leading_spec (hpos : 0 < rank) :
    (10 : ℚ) ^ f.leading rank ≤ f.magnitude rank ∧
      f.magnitude rank < 10 ^ (f.leading rank + 1) := by
  have hunits : 0 < f.units rank := by
    have h := f.units_strictMono hpos
    rwa [units_zero] at h
  exact leadingExponent_spec hunits (Nat.two_pow_pos _)

/-- On its grid a magnitude has `count` digits before the point. -/
theorem gridValue_lt (hpos : 0 < rank) (count : Nat) : f.gridValue rank count < 10 ^ count := by
  have h := (f.leading_spec hpos).2
  rw [gridValue, div_lt_iff₀ (zpow_pos (by norm_num) _), ← zpow_natCast, ← zpow_add₀ (by norm_num)]
  rwa [show (count : Int) + (f.leading rank + 1 - count) = f.leading rank + 1 by omega]

/-- The nearest numeral of seventeen digits is close, if the significands have at most sixteen. -/
theorem close_of_gridValue (hbits : 2 * 2 ^ f.fractionBits < 10 ^ 16) (hpos : 0 < rank)
    {digits : Nat} (hnear : 2 * |(digits : ℚ) - f.gridValue rank 17| ≤ 1) :
    ((2 * 2 ^ f.fractionBits : Nat) : ℚ)
        * (2 * |Decimal.magnitude digits (f.leading rank + 1 - 17) - f.magnitude rank|)
      < f.magnitude rank := by
  have hplace : (0 : ℚ) < 10 ^ (f.leading rank + 1 - 17) := zpow_pos (by norm_num) _
  have hgrid : f.gridValue rank 17 * 10 ^ (f.leading rank + 1 - 17) = f.magnitude rank :=
    div_mul_cancel₀ _ (ne_of_gt hplace)
  have hdist : 2 * |Decimal.magnitude digits (f.leading rank + 1 - 17) - f.magnitude rank|
      ≤ 10 ^ (f.leading rank + 1 - 17) := by
    rw [Decimal.magnitude, ← hgrid, ← sub_mul, abs_mul, abs_of_pos hplace, ← mul_assoc]
    exact mul_le_of_le_one_left (le_of_lt hplace) hnear
  have hlead : (10 : ℚ) ^ 16 * 10 ^ (f.leading rank + 1 - 17) ≤ f.magnitude rank := by
    rw [← zpow_natCast, ← zpow_add₀ (by norm_num)]
    have h := (f.leading_spec hpos).1
    rwa [show ((16 : Nat) : Int) + (f.leading rank + 1 - 17) = f.leading rank by omega]
  have hcast : ((2 * 2 ^ f.fractionBits : Nat) : ℚ) < 10 ^ 16 := by exact_mod_cast hbits
  calc ((2 * 2 ^ f.fractionBits : Nat) : ℚ)
        * (2 * |Decimal.magnitude digits (f.leading rank + 1 - 17) - f.magnitude rank|)
    _ ≤ ((2 * 2 ^ f.fractionBits : Nat) : ℚ) * 10 ^ (f.leading rank + 1 - 17) :=
      mul_le_mul_of_nonneg_left hdist (Nat.cast_nonneg _)
    _ < 10 ^ 16 * 10 ^ (f.leading rank + 1 - 17) := mul_lt_mul_of_pos_right hcast hplace
    _ ≤ f.magnitude rank := hlead

end Format

section
variable {tie : Tie} {rank : Rank} {count digits : Nat} {exponent : Int}

/-- The search on one grid, told by a quotient that is the magnitude in units of its last place. -/
theorem shortestAt?_eq (tie : Tie) (rank : Rank) (count : Nat) :
    ∃ num den : Nat, 0 < den ∧ (num : ℚ) / den = binary64.gridValue rank count ∧
      shortestAt? tie rank count
        = firstReading? rank (binary64.leading rank + 1 - count) (neighbours tie num den) := by
  refine ⟨_, _, ?_, div_zpow_ten (binary64.units rank) (2 ^ binary64.unitExponent) _, rfl⟩
  exact Nat.mul_pos (Nat.two_pow_pos _) (Nat.pow_pos (by decide))

/-- What is found is one of the two candidates, at the place of the grid. -/
theorem of_firstReading? {place : Int} {candidates : Nat × Nat}
    (h : firstReading? rank place candidates = some (digits, exponent)) :
    (digits = candidates.1 ∨ digits = candidates.2) ∧ exponent = place := by
  rw [firstReading?] at h
  split at h
  · cases h
    exact ⟨.inl rfl, rfl⟩
  · split at h
    · cases h
      exact ⟨.inr rfl, rfl⟩
    · cases h

/-- What is found on a grid has no more digits than the grid. -/
theorem digits_le_of_shortestAt? (hpos : 0 < rank.val)
    (h : shortestAt? tie rank count = some (digits, exponent)) : digits ≤ 10 ^ count := by
  obtain ⟨num, den, hden, hvalue, hsearch⟩ := shortestAt?_eq tie rank count
  have hlt : num / den < 10 ^ count := by
    have hgrid := binary64.gridValue_lt hpos count
    rw [← hvalue, div_lt_iff₀ (Nat.cast_pos.2 hden)] at hgrid
    rw [Nat.div_lt_iff_lt_mul hden]
    exact_mod_cast hgrid
  obtain ⟨hfirst, hsecond⟩ := neighbours_le tie num den
  obtain ⟨rfl | rfl, -⟩ := of_firstReading? (hsearch ▸ h) <;> omega

/-- The last place of what is found is that of its grid. -/
theorem exponent_of_shortestAt? (h : shortestAt? tie rank count = some (digits, exponent)) :
    exponent = binary64.leading rank + 1 - count := by
  obtain ⟨num, den, -, -, hsearch⟩ := shortestAt?_eq tie rank count
  exact (of_firstReading? (hsearch ▸ h)).2

/-! ### Seventeen digits -/

/-- A power of ten that no magnitude reaches bounds every leading digit. -/
theorem leading_lt_of_units_le {power : Nat} (hpos : 0 < rank.val)
    (h : binary64.units binary64.magnitudes ≤ 10 ^ power * 2 ^ binary64.unitExponent) :
    binary64.leading rank < power := by
  have hmost : binary64.magnitude binary64.magnitudes ≤ 10 ^ power := by
    rw [Format.magnitude, div_le_iff₀ binary64.unit_pos]
    exact_mod_cast h
  have hlt := lt_of_lt_of_le (binary64.magnitude_strictMono rank.isLt) hmost
  have hlead := lt_of_le_of_lt (binary64.leading_spec hpos).1 hlt
  rw [← zpow_natCast] at hlead
  exact (zpow_lt_zpow_iff_right₀ (by norm_num)).1 hlead

/-- Magnitudes of double precision stay below `10 ^ 309`. -/
theorem leading_lt (hpos : 0 < rank.val) : binary64.leading rank < 309 :=
  leading_lt_of_units_le hpos (by decide +kernel)

/-- The nearest numeral of seventeen digits reads back. -/
theorem shortestAt?_seventeen_isSome (tie : Tie) (hpos : 0 < rank.val) :
    (shortestAt? tie rank 17).isSome = true := by
  obtain ⟨num, den, hden, hvalue, hsearch⟩ := shortestAt?_eq tie rank 17
  have hnear := @abs_neighbours_sub_le tie num den hden
  rw [hvalue] at hnear
  rw [Nat.cast_ofNat] at hsearch
  have hclose := binary64.close_of_gridValue (by decide) hpos hnear
  have hplace : binary64.leading rank + 1 - 17 ≤ binary64.exponents := by
    have hexponents : (binary64.exponents : Int) = 2047 := rfl
    have hleading := leading_lt hpos
    omega
  have hback : readsBack rank (neighbours tie num den).1 (binary64.leading rank + 1 - 17)
      = true := by
    rw [Decimal.magnitude_eq_div] at hclose
    rw [readsBack, beq_iff_eq, Decimal.nearestRank_eq binary64 _ hplace]
    exact binary64.nearestRank_eq_of_close (by decide) (Nat.pow_pos (by decide)) hclose
  rw [hsearch, firstReading?, if_pos hback]
  rfl

/-- The shortest digits are found on one of the first seventeen grids. -/
theorem exists_shortestAt? (tie : Tie) (hpos : 0 < rank.val) :
    ∃ n < 17, shortestAt? tie rank (n + 1) = some (shortest tie rank) := by
  obtain ⟨found, hfound⟩ : ∃ found,
      (List.range 17).findSome? (fun n => shortestAt? tie rank (n + 1)) = some found := by
    rw [← Option.isSome_iff_exists, List.findSome?_isSome_iff]
    exact ⟨16, by decide, shortestAt?_seventeen_isSome tie hpos⟩
  obtain ⟨n, hn, hcount⟩ := List.exists_of_findSome?_eq_some hfound
  refine ⟨n, List.mem_range.1 hn, ?_⟩
  rw [shortest, if_neg (by omega), hfound, hcount, Option.getD_some]

/-- The shortest digits of a magnitude are seventeen at most. -/
theorem digits_le_of_shortest (hpos : 0 < rank.val) (h : shortest tie rank = (digits, exponent)) :
    digits ≤ 10 ^ 17 := by
  obtain ⟨n, hn, hcount⟩ := exists_shortestAt? tie hpos
  rw [h] at hcount
  exact Nat.le_trans (digits_le_of_shortestAt? hpos hcount) (Nat.pow_le_pow_right (by decide) hn)

/-- The shortest digits round to their magnitude. -/
theorem nearestRank_shortest (tie : Tie) (hpos : 0 < rank.val) :
    Decimal.nearestRank binary64 (shortest tie rank).1 (shortest tie rank).2 = rank.val :=
  beq_iff_eq.1 (@readsBack_shortest tie rank _ _ hpos rfl)

end

end JsonDoc.Number
