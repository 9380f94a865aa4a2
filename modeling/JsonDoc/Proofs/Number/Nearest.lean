import JsonDoc.Proofs.Number.Rational

/-!
# `JsonDoc.Proofs.Number.Nearest`: rounding told by midpoints

`Format.midpoint` is the rational halfway between a magnitude and the next. A quotient lies between
the midpoints on both sides of the magnitude that it is rounded to, and on one of them only if the
rank is even (`Format.le_midpoint_nearestRank`, `Format.midpoint_le_of_nearestRank`). As midpoints
grow with their ranks, this settles where a quotient is rounded to:

* `Format.nearestRank_mono`: a greater quotient has no smaller rank.
* `Format.nearestRank_eq_of_between`: what lies strictly between the two midpoints of a magnitude
  is rounded to it.
-/

set_option autoImplicit false

namespace JsonDoc.Number

/-! ### Rounding to a whole number -/

/-- A quotient is at most a half above the whole number that it is rounded to, and a half only if
that is even. -/
theorem roundHalfEven_above {num den : Nat} (hden : 0 < den) :
    2 * num < (2 * roundHalfEven num den + 1) * den ∨
      2 * num = (2 * roundHalfEven num den + 1) * den ∧ roundHalfEven num den % 2 = 0 := by
  have hnum := Nat.div_add_mod' num den
  have hmod := Nat.mod_lt num hden
  have hmul (k : Nat) : (2 * k + 1) * den = 2 * (k * den) + den := by ring
  have hsucc : (num / den + 1) * den = num / den * den + den := Nat.succ_mul _ _
  simp only [hmul, roundHalfEven]
  split
  · omega
  · split
    · omega
    · rcases Nat.mod_two_eq_zero_or_one (num / den) with heven | hodd
      · rw [heven, Nat.add_zero]
        omega
      · rw [hodd]
        omega

/-- A quotient is at most a half below the whole number that it is rounded to, and a half only if
that is even. -/
theorem roundHalfEven_below {num den : Nat} (hden : 0 < den) :
    2 * roundHalfEven num den * den < 2 * num + den ∨
      2 * roundHalfEven num den * den = 2 * num + den ∧ roundHalfEven num den % 2 = 0 := by
  have hnum := Nat.div_add_mod' num den
  have hmod := Nat.mod_lt num hden
  have hsucc : (num / den + 1) * den = num / den * den + den := Nat.succ_mul _ _
  simp only [Nat.mul_assoc 2, roundHalfEven]
  split
  · omega
  · split
    · omega
    · rcases Nat.mod_two_eq_zero_or_one (num / den) with heven | hodd
      · rw [heven, Nat.add_zero]
        omega
      · rw [hodd]
        omega

namespace Format

variable (f : Format)

/-! ### The scale of a quotient -/

/-- The scale of a quotient of `num` units by `den`. -/
def quotientScale (num den : Nat) : Nat :=
  Nat.log2 (num * 2 ^ f.unitExponent / den) - f.fractionBits

/-- The significand of a rounded quotient, at its scale. -/
def quotientSignificand (num den : Nat) : Nat :=
  roundHalfEven (num * 2 ^ f.unitExponent) (den * 2 ^ f.quotientScale num den)

/-- The rank of a rounded quotient is put together from its scale and its significand. -/
theorem nearestRank_eq_add (num den : Nat) :
    f.nearestRank num den
      = f.quotientScale num den * 2 ^ f.fractionBits + f.quotientSignificand num den := rfl

section
variable {num den : Nat}

/-- At its scale a quotient is short of all the values that significands have. -/
theorem quotient_lt (hden : 0 < den) :
    num * 2 ^ f.unitExponent < 2 * 2 ^ f.fractionBits * (den * 2 ^ f.quotientScale num den) := by
  rw [Nat.mul_comm den, ← Nat.mul_assoc, ← Nat.div_lt_iff_lt_mul hden, Nat.mul_comm 2,
    ← Nat.pow_succ, ← Nat.pow_add]
  refine Nat.lt_of_lt_of_le Nat.lt_log2_self (Nat.pow_le_pow_right (by decide) ?_)
  rw [quotientScale]
  omega

/-- Unless it is subnormal, a quotient has its leading bit at its scale. -/
theorem le_quotient (hden : 0 < den) (hscale : f.quotientScale num den ≠ 0) :
    2 ^ f.fractionBits * (den * 2 ^ f.quotientScale num den) ≤ num * 2 ^ f.unitExponent := by
  have hne : num * 2 ^ f.unitExponent / den ≠ 0 := by
    intro hzero
    rw [quotientScale, hzero, Nat.log2_zero, Nat.zero_sub] at hscale
    exact hscale rfl
  rw [Nat.mul_comm den, ← Nat.mul_assoc, ← Nat.le_div_iff_mul_le hden, ← Nat.pow_add]
  refine Nat.le_trans (Nat.pow_le_pow_right (by decide) ?_) (Nat.log2_self_le hne)
  rw [quotientScale] at *
  omega

/-- Rounding can carry a significand to the power of two above all others, and no further. -/
theorem quotientSignificand_le (hden : 0 < den) :
    f.quotientSignificand num den ≤ 2 * 2 ^ f.fractionBits := by
  have hpos : 0 < den * 2 ^ f.quotientScale num den := Nat.mul_pos hden (Nat.two_pow_pos _)
  have hlt := @quotient_lt f num den hden
  have hround := @roundHalfEven_below (num * 2 ^ f.unitExponent) _ hpos
  have hle : 2 * f.quotientSignificand num den * (den * 2 ^ f.quotientScale num den)
      < (4 * 2 ^ f.fractionBits + 1) * (den * 2 ^ f.quotientScale num den) := by
    rw [quotientSignificand]
    linarith [hround.elim Nat.le_of_lt fun h => Nat.le_of_eq h.1]
  have := Nat.lt_of_mul_lt_mul_right hle
  omega

/-- Rounding does not lose the leading bit of a quotient that is not subnormal. -/
theorem le_quotientSignificand (hden : 0 < den) (hscale : f.quotientScale num den ≠ 0) :
    2 ^ f.fractionBits ≤ f.quotientSignificand num den := by
  have hpos : 0 < den * 2 ^ f.quotientScale num den := Nat.mul_pos hden (Nat.two_pow_pos _)
  have hle := f.le_quotient hden hscale
  have hround := @roundHalfEven_above (num * 2 ^ f.unitExponent) _ hpos
  have hle : 2 * 2 ^ f.fractionBits * (den * 2 ^ f.quotientScale num den)
      ≤ (2 * f.quotientSignificand num den + 1) * (den * 2 ^ f.quotientScale num den) := by
    rw [quotientSignificand]
    linarith [hround.elim Nat.le_of_lt fun h => Nat.le_of_eq h.1]
  have := Nat.le_of_mul_le_mul_right hle hpos
  omega

/-- The magnitude that a quotient is rounded to, in units. -/
theorem units_nearestRank (hden : 0 < den) :
    f.units (f.nearestRank num den)
      = f.quotientSignificand num den * 2 ^ f.quotientScale num den := by
  rw [nearestRank_eq_add]
  refine f.units_scaled (f.quotientSignificand_le hden) ?_
  exact (Nat.eq_zero_or_pos _).imp_right fun h => f.le_quotientSignificand hden (Nat.ne_of_gt h)

/-- The magnitude has the scale of the quotient, or it is the first one of the next scale. -/
theorem quotientScale_le (hden : 0 < den) :
    f.quotientScale num den ≤ f.scale (f.nearestRank num den) := by
  rcases Nat.eq_zero_or_pos (f.quotientScale num den) with hzero | hpos
  · omega
  · have hle := f.le_quotientSignificand hden (Nat.ne_of_gt hpos)
    have hrank : (f.quotientScale num den + 1) * 2 ^ f.fractionBits ≤ f.nearestRank num den := by
      rw [nearestRank_eq_add, Nat.succ_mul]
      omega
    rw [← Nat.le_div_iff_mul_le (Nat.two_pow_pos _)] at hrank
    rw [scale]
    omega

/-! ### Midpoints -/

/-- Halfway between the magnitude of a rank and the next. -/
def midpoint (rank : Nat) : ℚ :=
  ((f.units rank + f.units (rank + 1) : Nat) : ℚ) / ((2 * 2 ^ f.unitExponent : Nat) : ℚ)

/-- Midpoints grow with their ranks. -/
theorem midpoint_strictMono : StrictMono f.midpoint := by
  intro r s h
  have hlow : f.units r < f.units s := f.units_strictMono h
  have hhigh : f.units (r + 1) < f.units (s + 1) := f.units_strictMono (Nat.succ_lt_succ h)
  refine div_lt_div_of_pos_right (Nat.cast_lt.2 (by omega)) (Nat.cast_pos.2 ?_)
  exact Nat.mul_pos Nat.two_pos (Nat.two_pow_pos _)

/-- A bound on a midpoint that is checked in units. -/
theorem midpoint_le_natCast {rank bound : Nat}
    (h : f.units rank + f.units (rank + 1) ≤ bound * (2 * 2 ^ f.unitExponent)) :
    f.midpoint rank ≤ bound := by
  rw [midpoint, div_le_iff₀ (Nat.cast_pos.2 (Nat.mul_pos Nat.two_pos (Nat.two_pow_pos _))),
    ← Nat.cast_mul, Nat.cast_le]
  exact h

/-- Whether a quotient lies below a midpoint, decided in whole numbers. -/
theorem lt_midpoint_iff (hden : 0 < den) {rank : Nat} :
    (num : ℚ) / den < f.midpoint rank ↔
      2 * (num * 2 ^ f.unitExponent) < (f.units rank + f.units (rank + 1)) * den := by
  rw [midpoint, div_lt_div_iff₀ (Nat.cast_pos.2 hden)
    (Nat.cast_pos.2 (Nat.mul_pos Nat.two_pos (Nat.two_pow_pos _))), ← Nat.cast_mul, ← Nat.cast_mul,
    Nat.cast_lt, Nat.mul_left_comm]

/-- Whether a quotient lies above a midpoint, decided in whole numbers. -/
theorem midpoint_lt_iff (hden : 0 < den) {rank : Nat} :
    f.midpoint rank < (num : ℚ) / den ↔
      (f.units rank + f.units (rank + 1)) * den < 2 * (num * 2 ^ f.unitExponent) := by
  rw [midpoint, div_lt_div_iff₀ (Nat.cast_pos.2 (Nat.mul_pos Nat.two_pos (Nat.two_pow_pos _)))
    (Nat.cast_pos.2 hden), ← Nat.cast_mul, ← Nat.cast_mul, Nat.cast_lt, Nat.mul_left_comm]

/-- Whether a quotient lies on a midpoint, decided in whole numbers. -/
theorem eq_midpoint_iff (hden : 0 < den) {rank : Nat} :
    (num : ℚ) / den = f.midpoint rank ↔
      2 * (num * 2 ^ f.unitExponent) = (f.units rank + f.units (rank + 1)) * den := by
  have hlt := @lt_midpoint_iff f num den hden rank
  have hgt := @midpoint_lt_iff f num den hden rank
  rw [← not_iff_not, ← ne_eq, ← ne_eq, ← lt_or_lt_iff_ne, ← lt_or_lt_iff_ne, hlt, hgt]

/-- The rank is even if the significand is. -/
theorem nearestRank_mod_two (hbits : 0 < f.fractionBits)
    (heven : f.quotientSignificand num den % 2 = 0) : f.nearestRank num den % 2 = 0 := by
  have hpow : 2 ^ f.fractionBits % 2 = 0 := by
    rw [← Nat.sub_add_cancel hbits, Nat.pow_succ, Nat.mul_mod_left]
  rw [nearestRank_eq_add, Nat.add_mod, Nat.mul_mod, hpow, heven, Nat.mul_zero]

/-- A quotient is below the midpoint above the magnitude that it is rounded to, or on it. -/
theorem le_midpoint_nearestRank (hbits : 0 < f.fractionBits) (hden : 0 < den) :
    (num : ℚ) / den < f.midpoint (f.nearestRank num den) ∨
      (num : ℚ) / den = f.midpoint (f.nearestRank num den) ∧ f.nearestRank num den % 2 = 0 := by
  have hpos : 0 < den * 2 ^ f.quotientScale num den := Nat.mul_pos hden (Nat.two_pow_pos _)
  have hstep : (2 * f.quotientSignificand num den + 1) * (den * 2 ^ f.quotientScale num den)
      ≤ (f.units (f.nearestRank num den) + f.units (f.nearestRank num den + 1)) * den := by
    have hpow := Nat.pow_le_pow_right Nat.two_pos (@quotientScale_le f num den hden)
    rw [units_succ, f.units_nearestRank hden]
    refine Nat.le_trans (Nat.le_of_eq ?_) (Nat.mul_le_mul_right den
      (Nat.add_le_add_left (Nat.add_le_add_left hpow _) _))
    ring
  rw [f.lt_midpoint_iff hden, f.eq_midpoint_iff hden]
  rcases @roundHalfEven_above (num * 2 ^ f.unitExponent) _ hpos with hlt | ⟨heq, heven⟩
  · exact .inl (Nat.lt_of_lt_of_le hlt hstep)
  · rcases Nat.lt_or_eq_of_le hstep with hlt | hmid
    · exact .inl (heq.trans_lt hlt)
    · exact .inr ⟨heq.trans hmid, f.nearestRank_mod_two hbits heven⟩

/-- A quotient is above the midpoint below the magnitude that it is rounded to, or on it. -/
theorem midpoint_le_of_nearestRank (hbits : 0 < f.fractionBits) (hden : 0 < den) {rank : Nat}
    (h : f.nearestRank num den = rank + 1) :
    f.midpoint rank < (num : ℚ) / den ∨
      f.midpoint rank = (num : ℚ) / den ∧ (rank + 1) % 2 = 0 := by
  have hpos : 0 < den * 2 ^ f.quotientScale num den := Nat.mul_pos hden (Nat.two_pow_pos _)
  have hunits : f.units rank + 2 ^ f.scale rank
      = f.quotientSignificand num den * 2 ^ f.quotientScale num den := by
    rw [← units_succ, ← h, f.units_nearestRank hden]
  rw [f.midpoint_lt_iff hden, eq_comm (a := f.midpoint rank), f.eq_midpoint_iff hden]
  rcases Nat.lt_or_ge (f.scale rank) (f.quotientScale num den) with hless | hge
  · -- The magnitude is the first one of its scale, and the quotient is not below it.
    have hle := f.le_quotient hden (Nat.ne_of_gt (Nat.lt_of_le_of_lt (Nat.zero_le _) hless))
    have hrank : rank < (f.quotientScale num den + 1) * 2 ^ f.fractionBits := by
      rw [← Nat.div_lt_iff_lt_mul (Nat.two_pow_pos _)]
      rw [scale] at hless
      omega
    have hsig : f.quotientSignificand num den ≤ 2 ^ f.fractionBits := by
      rw [nearestRank_eq_add] at h
      rw [Nat.succ_mul] at hrank
      omega
    have hmag : f.units (rank + 1) ≤ 2 ^ f.fractionBits * 2 ^ f.quotientScale num den := by
      rw [← h, f.units_nearestRank hden]
      exact Nat.mul_le_mul_right _ hsig
    have hlt : f.units rank < f.units (rank + 1) := f.units_strictMono (Nat.lt_succ_self rank)
    refine .inl ?_
    calc (f.units rank + f.units (rank + 1)) * den
      _ < 2 * (2 ^ f.fractionBits * 2 ^ f.quotientScale num den) * den :=
        Nat.mul_lt_mul_of_pos_right (by omega) hden
      _ = 2 * (2 ^ f.fractionBits * (den * 2 ^ f.quotientScale num den)) := by ring
      _ ≤ 2 * (num * 2 ^ f.unitExponent) := Nat.mul_le_mul_left 2 hle
  · -- Otherwise half a step of the quotient is at most half a step of the rank, and the tie is
    -- told by the parity of the significand.
    have hstep : (f.units rank + f.units (rank + 1)) * den + den * 2 ^ f.quotientScale num den
        ≤ 2 * f.quotientSignificand num den * (den * 2 ^ f.quotientScale num den) := by
      have hpow := Nat.pow_le_pow_right Nat.two_pos hge
      calc (f.units rank + f.units (rank + 1)) * den + den * 2 ^ f.quotientScale num den
        _ = (f.units rank + f.units (rank + 1) + 2 ^ f.quotientScale num den) * den := by ring
        _ ≤ (2 * (f.units rank + 2 ^ f.scale rank)) * den := by
          rw [units_succ]
          exact Nat.mul_le_mul_right den (by omega)
        _ = 2 * f.quotientSignificand num den * (den * 2 ^ f.quotientScale num den) := by
          rw [hunits]
          ring
    rcases @roundHalfEven_below (num * 2 ^ f.unitExponent) _ hpos with hlt | ⟨heq, heven⟩
    · exact .inl (Nat.lt_of_add_lt_add_right (Nat.lt_of_le_of_lt hstep hlt))
    · have hle := Nat.le_of_add_le_add_right (Nat.le_trans hstep (Nat.le_of_eq heq))
      rcases Nat.lt_or_eq_of_le hle with hlt | hmid
      · exact .inl hlt
      · exact .inr ⟨hmid.symm, h ▸ f.nearestRank_mod_two hbits heven⟩

end

/-! ### Where a quotient is rounded to -/

section
variable {num den num' den' : Nat}

/-- What lies above the magnitude that a quotient is rounded to has its midpoints above it. -/
theorem le_midpoint (hbits : 0 < f.fractionBits) (hden : 0 < den) {rank : Nat}
    (h : f.nearestRank num den ≤ rank) : (num : ℚ) / den ≤ f.midpoint rank :=
  le_trans ((f.le_midpoint_nearestRank hbits hden).elim le_of_lt fun h => le_of_eq h.1)
    (f.midpoint_strictMono.monotone h)

/-- What lies below the magnitude that a quotient is rounded to has its midpoints below the
quotient. -/
theorem midpoint_le (hbits : 0 < f.fractionBits) (hden : 0 < den) {rank : Nat}
    (h : rank < f.nearestRank num den) : f.midpoint rank ≤ (num : ℚ) / den := by
  obtain ⟨below, hbelow⟩ := Nat.exists_eq_succ_of_ne_zero (Nat.ne_of_gt (Nat.zero_lt_of_lt h))
  refine le_trans (f.midpoint_strictMono.monotone (show rank ≤ below by omega)) ?_
  exact (f.midpoint_le_of_nearestRank hbits hden hbelow).elim le_of_lt fun h => le_of_eq h.1

/-- A quotient between the midpoints on both sides of a magnitude is rounded to that one. -/
theorem nearestRank_eq_of_between (hbits : 0 < f.fractionBits) (hden : 0 < den) {rank : Nat}
    (hlow : ∀ below, below + 1 = rank → f.midpoint below < (num : ℚ) / den)
    (hhigh : (num : ℚ) / den < f.midpoint rank) : f.nearestRank num den = rank := by
  rcases Nat.lt_trichotomy (f.nearestRank num den) rank with hlt | heq | hgt
  · obtain ⟨below, rfl⟩ := Nat.exists_eq_succ_of_ne_zero (Nat.ne_of_gt (Nat.zero_lt_of_lt hlt))
    have hle := f.le_midpoint hbits hden (Nat.le_of_lt_succ hlt)
    exact absurd (hlow below rfl) (not_lt.2 hle)
  · exact heq
  · exact absurd hhigh (not_lt.2 (f.midpoint_le hbits hden hgt))

/-- A greater quotient is not rounded to a smaller magnitude. -/
theorem nearestRank_mono (hbits : 0 < f.fractionBits) (hden : 0 < den) (hden' : 0 < den')
    (h : (num : ℚ) / den ≤ (num' : ℚ) / den') :
    f.nearestRank num den ≤ f.nearestRank num' den' := by
  by_contra hlt
  obtain ⟨below, hbelow⟩ : ∃ below, f.nearestRank num den = below + 1 :=
    Nat.exists_eq_succ_of_ne_zero (by omega)
  -- Both quotients would be the midpoint between two even ranks.
  have hlow := f.midpoint_le_of_nearestRank hbits hden hbelow
  have hhigh := @le_midpoint_nearestRank f num' den' hbits hden'
  have hmono := f.midpoint_strictMono.monotone
    (show f.nearestRank num' den' ≤ below by omega)
  rcases hlow with hlow | ⟨hlow, heven⟩
  · rcases hhigh with hhigh | ⟨hhigh, -⟩ <;> linarith
  · rcases hhigh with hhigh | ⟨hhigh, heven'⟩
    · linarith
    · have hsame := f.midpoint_strictMono.injective (show f.midpoint (f.nearestRank num' den')
        = f.midpoint below by linarith)
      omega

end

/-! ### Steps -/

/-- How far the magnitude of a rank is from the next. -/
def step (rank : Nat) : ℚ := ((2 ^ f.scale rank : Nat) : ℚ) / ((2 ^ f.unitExponent : Nat) : ℚ)

/-- Steps are positive, so that no two ranks share a magnitude. -/
theorem step_pos (rank : Nat) : 0 < f.step rank :=
  div_pos (Nat.cast_pos.2 (Nat.two_pow_pos _)) f.unit_pos

/-- The next magnitude is one step away. -/
theorem magnitude_succ (rank : Nat) : f.magnitude (rank + 1) = f.magnitude rank + f.step rank := by
  rw [magnitude, units_succ, Nat.cast_add, add_div, ← magnitude, ← step]

/-- A midpoint is half a step above its magnitude. -/
theorem midpoint_eq (rank : Nat) : f.midpoint rank = f.magnitude rank + f.step rank / 2 := by
  have hmid : f.midpoint rank = (f.magnitude rank + f.magnitude (rank + 1)) / 2 := by
    rw [midpoint, Nat.cast_add, Nat.cast_mul, magnitude, magnitude, ← add_div, div_div,
      Nat.cast_ofNat, mul_comm]
  rw [hmid, magnitude_succ]
  ring

/-- A magnitude has at most as many steps as significands have values. -/
theorem magnitude_lt (rank : Nat) :
    f.magnitude rank < ((2 * 2 ^ f.fractionBits : Nat) : ℚ) * f.step rank := by
  rw [magnitude, step, ← mul_div_assoc, ← Nat.cast_mul]
  refine div_lt_div_of_pos_right (Nat.cast_lt.2 ?_) f.unit_pos
  exact Nat.mul_lt_mul_of_pos_right (f.significand_lt rank) (Nat.two_pow_pos _)

/-- The next magnitude has at most as many of the same steps. -/
theorem magnitude_succ_le (rank : Nat) :
    f.magnitude (rank + 1) ≤ ((2 * 2 ^ f.fractionBits : Nat) : ℚ) * f.step rank := by
  rw [magnitude, step, ← mul_div_assoc, ← Nat.cast_mul]
  refine div_le_div_of_nonneg_right (Nat.cast_le.2 ?_) (le_of_lt f.unit_pos)
  calc f.units (rank + 1)
    _ = (f.significand rank + 1) * 2 ^ f.scale rank := by rw [units_succ, units, Nat.succ_mul]
    _ ≤ 2 * 2 ^ f.fractionBits * 2 ^ f.scale rank :=
      Nat.mul_le_mul_right _ (f.significand_lt rank)

/-- A quotient that differs little from a magnitude is rounded to it. -/
theorem nearestRank_eq_of_close {num den rank : Nat} (hbits : 0 < f.fractionBits) (hden : 0 < den)
    (h : ((2 * 2 ^ f.fractionBits : Nat) : ℚ) * (2 * |(num : ℚ) / den - f.magnitude rank|)
      < f.magnitude rank) : f.nearestRank num den = rank := by
  have hpos : (0 : ℚ) < ((2 * 2 ^ f.fractionBits : Nat) : ℚ) :=
    Nat.cast_pos.2 (Nat.mul_pos Nat.two_pos (Nat.two_pow_pos _))
  refine f.nearestRank_eq_of_between hbits hden (fun below hbelow => ?_) ?_
  · subst hbelow
    have hstep := lt_of_mul_lt_mul_left (lt_of_lt_of_le h (f.magnitude_succ_le below))
      (le_of_lt hpos)
    have hdist := neg_abs_le ((num : ℚ) / den - f.magnitude (below + 1))
    rw [midpoint_eq]
    rw [magnitude_succ] at hstep hdist
    linarith
  · have hstep := lt_of_mul_lt_mul_left (lt_trans h (f.magnitude_lt rank)) (le_of_lt hpos)
    have hdist := le_abs_self ((num : ℚ) / den - f.magnitude rank)
    rw [midpoint_eq]
    linarith

/-! ### Whole numbers -/

/-- A whole number whose bits fit in a significand, zeros at their end aside, is a magnitude. -/
theorem units_nearestRank_shifted {whole : Nat} (h : whole < 2 * 2 ^ f.fractionBits) (zeros : Nat) :
    f.units (f.nearestRank (whole * 2 ^ zeros) 1) = whole * 2 ^ zeros * 2 ^ f.unitExponent := by
  have hunits : whole * 2 ^ zeros * 2 ^ f.unitExponent = whole * 2 ^ (zeros + f.unitExponent) := by
    rw [Nat.pow_add, Nat.mul_assoc]
  have hscale : f.quotientScale (whole * 2 ^ zeros) 1 ≤ zeros + f.unitExponent := by
    have hlt : whole * 2 ^ (zeros + f.unitExponent)
        < 2 ^ (f.fractionBits + (zeros + f.unitExponent) + 1) := by
      calc whole * 2 ^ (zeros + f.unitExponent)
        _ < 2 * 2 ^ f.fractionBits * 2 ^ (zeros + f.unitExponent) :=
          Nat.mul_lt_mul_of_pos_right h (Nat.two_pow_pos _)
        _ = 2 ^ (f.fractionBits + (zeros + f.unitExponent) + 1) := by
          rw [Nat.pow_succ, Nat.pow_add 2 f.fractionBits]
          ring
    rw [quotientScale, Nat.div_one, hunits]
    rcases Nat.eq_zero_or_pos (whole * 2 ^ (zeros + f.unitExponent)) with hzero | hpos
    · rw [hzero, Nat.log2_zero]
      omega
    · have := (Nat.log2_lt (Nat.ne_of_gt hpos)).2 hlt
      omega
  -- At its scale the quotient is a whole number.
  have hsplit : whole * 2 ^ zeros * 2 ^ f.unitExponent
      = whole * 2 ^ (zeros + f.unitExponent - f.quotientScale (whole * 2 ^ zeros) 1)
        * 2 ^ f.quotientScale (whole * 2 ^ zeros) 1 := by
    rw [hunits, Nat.mul_assoc, ← Nat.pow_add, Nat.sub_add_cancel hscale]
  have hsig : f.quotientSignificand (whole * 2 ^ zeros) 1
      = whole * 2 ^ (zeros + f.unitExponent - f.quotientScale (whole * 2 ^ zeros) 1) := by
    have hmul := roundHalfEven_mul_right
      (whole * 2 ^ (zeros + f.unitExponent - f.quotientScale (whole * 2 ^ zeros) 1)) 1
      (Nat.two_pow_pos (f.quotientScale (whole * 2 ^ zeros) 1))
    rw [roundHalfEven_one] at hmul
    rw [quotientSignificand, hsplit, hmul]
  rw [f.units_nearestRank Nat.one_pos, hsig, ← hsplit]

end Format

end JsonDoc.Number
