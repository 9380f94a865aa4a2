import JsonDoc.Proofs.Number.Rounding
import Mathlib.Order.Monotone.Basic
import Mathlib.Tactic.Ring

/-!
# `JsonDoc.Proofs.Number.Spacing`: the magnitudes of a format

The ranks of a format are cut into blocks of `2 ^ fractionBits`, one for each scale. A rank is the
start of its block and a significand (`Format.significand_add`), and every sum of that kind has the
magnitude that it says, the first rank of the next block included (`Format.units_scaled`). So each
magnitude is one step of its scale above the one before (`Format.units_succ`), and magnitudes grow
with their ranks.
-/

set_option autoImplicit false

namespace JsonDoc.Number.Format

variable (f : Format)

/-! ### Blocks -/

/-- The block of a rank does not start above it. -/
theorem scale_mul_le (rank : Nat) : f.scale rank * 2 ^ f.fractionBits ≤ rank :=
  calc f.scale rank * 2 ^ f.fractionBits
    _ ≤ rank / 2 ^ f.fractionBits * 2 ^ f.fractionBits := Nat.mul_le_mul_right _ (Nat.sub_le _ _)
    _ ≤ rank := Nat.div_mul_le_self _ _

/-- A rank is the start of its block and its significand. -/
theorem significand_add (rank : Nat) :
    f.scale rank * 2 ^ f.fractionBits + f.significand rank = rank := by
  have := f.scale_mul_le rank
  rw [significand]
  omega

/-- Significands have one bit more than the fraction. -/
theorem significand_lt (rank : Nat) : f.significand rank < 2 * 2 ^ f.fractionBits := by
  have hpow : 0 < 2 ^ f.fractionBits := Nat.two_pow_pos _
  have hlt : rank < (f.scale rank + 2) * 2 ^ f.fractionBits := by
    rw [← Nat.div_lt_iff_lt_mul hpow, scale]
    omega
  rw [Nat.add_mul] at hlt
  rw [significand]
  omega

/-- Only the first block has significands without a leading bit. -/
theorem le_significand {rank : Nat} (h : f.scale rank ≠ 0) :
    2 ^ f.fractionBits ≤ f.significand rank := by
  have hpow : 0 < 2 ^ f.fractionBits := Nat.two_pow_pos _
  have hle : (f.scale rank + 1) * 2 ^ f.fractionBits ≤ rank := by
    rw [scale] at h ⊢
    rw [← Nat.le_div_iff_mul_le hpow]
    omega
  rw [Nat.add_mul, Nat.one_mul] at hle
  rw [significand]
  omega

/-- A rank put together from a scale and a significand. -/
theorem units_scaled {s m : Nat} (hm : m ≤ 2 * 2 ^ f.fractionBits)
    (hs : s = 0 ∨ 2 ^ f.fractionBits ≤ m) :
    f.units (s * 2 ^ f.fractionBits + m) = m * 2 ^ s := by
  have hpow : 0 < 2 ^ f.fractionBits := Nat.two_pow_pos _
  have hquotient : (s * 2 ^ f.fractionBits + m) / 2 ^ f.fractionBits
      = s + m / 2 ^ f.fractionBits := by
    rw [Nat.add_comm, Nat.add_mul_div_right _ _ hpow, Nat.add_comm]
  rcases Nat.lt_or_eq_of_le hm with hlt | rfl
  · have hscale : f.scale (s * 2 ^ f.fractionBits + m) = s := by
      rw [scale, hquotient]
      rcases Nat.lt_or_ge m (2 ^ f.fractionBits) with hsub | hnormal
      · rw [Nat.div_eq_of_lt hsub]
        omega
      · have hone : m / 2 ^ f.fractionBits = 1 := Nat.div_eq_of_lt_le (by omega) (by omega)
        omega
    rw [units, significand, hscale, Nat.add_sub_cancel_left]
  · -- The power of two above the last significand starts the next block.
    have hscale : f.scale (s * 2 ^ f.fractionBits + 2 * 2 ^ f.fractionBits) = s + 1 := by
      rw [scale, hquotient, Nat.mul_div_cancel _ hpow]
      omega
    rw [units, significand, hscale, Nat.pow_succ]
    have hsig : s * 2 ^ f.fractionBits + 2 * 2 ^ f.fractionBits - (s + 1) * 2 ^ f.fractionBits
        = 2 ^ f.fractionBits := by
      rw [Nat.add_mul]
      omega
    rw [hsig]
    ring

/-! ### Neighbours -/

/-- The next magnitude is one step of the scale away. -/
theorem units_succ (rank : Nat) : f.units (rank + 1) = f.units rank + 2 ^ f.scale rank := by
  have hlt := f.significand_lt rank
  have hs : f.scale rank = 0 ∨ 2 ^ f.fractionBits ≤ f.significand rank + 1 := by
    rcases Nat.eq_zero_or_pos (f.scale rank) with hzero | hpos
    · exact .inl hzero
    · have := f.le_significand (Nat.ne_of_gt hpos)
      exact .inr (by omega)
  have hsucc : rank + 1 = f.scale rank * 2 ^ f.fractionBits + (f.significand rank + 1) := by
    have := f.significand_add rank
    omega
  calc f.units (rank + 1)
    _ = (f.significand rank + 1) * 2 ^ f.scale rank := by
      rw [hsucc, f.units_scaled (by omega) hs]
    _ = f.units rank + 2 ^ f.scale rank := by rw [Nat.add_mul, Nat.one_mul, units]

/-- Units grow with their ranks. -/
theorem units_strictMono : StrictMono f.units :=
  strictMono_nat_of_lt_succ fun rank => by
    rw [units_succ]
    exact Nat.lt_add_of_pos_right (Nat.two_pow_pos _)

end JsonDoc.Number.Format
