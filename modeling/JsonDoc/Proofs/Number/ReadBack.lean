import JsonDoc.Number.Written
import JsonDoc.Proofs.Number.Numeral
import JsonDoc.Proofs.Number.Rounding
import Mathlib.Tactic.Ring

/-!
# `JsonDoc.Proofs.Number.ReadBack`: a number written in full reads back

The shortest digits of a magnitude read back by construction: each candidate was read before it
was taken, and the exact expansion, which stands behind the candidates, reads back as well
(`readsBack_shortest`). What is left is the layout. Dropping the zeros at the end, and writing
the rest with all its places, keeps the value (`exists_numeralText_positionalText`), and rounding
looks at the value alone.

`Binary64.exists_numeralText_text` is the result: the full text of a finite number is a numeral
that rounds to that very number, the sign of a zero included.
-/

set_option autoImplicit false

namespace JsonDoc.Number

/-! ### Digits and the number they stand for -/

/-- Digits in front count as many powers of ten as there are digits behind them. -/
theorem natOfDigits_append (cs ds : List Char) :
    natOfDigits (cs ++ ds) = natOfDigits cs * 10 ^ ds.length + natOfDigits ds := by
  have happend : natOfDigits (cs ++ ds) = Nat.ofDigitChars 10 ds (natOfDigits cs) :=
    Nat.ofDigitChars_append 0
  rw [happend, Nat.ofDigitChars_eq_ofDigitChars_zero, Nat.mul_comm]
  rfl

/-- Digits stand for a number below the power of ten that counts them. -/
theorem natOfDigits_lt {ds : List Char} (hds : AllDigits ds) : natOfDigits ds < 10 ^ ds.length := by
  induction ds with
  | nil => exact Nat.one_pos
  | cons c ds ih =>
    obtain ⟨hc, hds⟩ := List.forall_mem_cons.1 hds
    have hfirst : natOfDigits [c] ≤ 9 := by
      rw [Char.isDigit, Bool.and_eq_true, decide_eq_true_eq, decide_eq_true_eq] at hc
      have hle : c.toNat ≤ '9'.toNat := hc.2
      have hnine : '9'.toNat = '0'.toNat + 9 := rfl
      rw [natOfDigits, List.foldl_cons, List.foldl_nil]
      omega
    have hmul := Nat.mul_le_mul_right (10 ^ ds.length) hfirst
    have hrest := ih hds
    rw [← List.singleton_append, natOfDigits_append, List.length_append, List.length_singleton,
      Nat.pow_add, Nat.pow_one]
    omega

/-- Zeros stand for zero, however many. -/
theorem natOfDigits_replicate_zero (n : Nat) : natOfDigits (List.replicate n '0') = 0 := by
  have h : natOfDigits (List.replicate n '0') = 10 ^ n * 0 := Nat.ofDigitChars_replicate_zero
  rwa [Nat.mul_zero] at h

/-- The digits of a number stand for it. -/
theorem natOfDigits_toDigits (n : Nat) : natOfDigits (Nat.toDigits 10 n) = n :=
  Nat.ofDigitChars_ten_toDigits

/-- A number is written with decimal digits, at least one. -/
theorem digits_toDigits (n : Nat) : Digits (Nat.toDigits 10 n) :=
  ⟨Nat.toDigits_ne_nil, fun _ hc => Nat.isDigit_of_mem_toDigits (by decide) (by decide) hc⟩

/-- Zeros are digits. -/
theorem allDigits_replicate_zero (n : Nat) : AllDigits (List.replicate n '0') := by
  intro c hc
  rw [List.eq_of_mem_replicate hc]
  rfl

/-- Digits behind digits are digits. -/
theorem AllDigits.append {cs ds : List Char} (hcs : AllDigits cs) (hds : AllDigits ds) :
    AllDigits (cs ++ ds) := by
  intro c hc
  rcases List.mem_append.1 hc with hc | hc
  · exact hcs c hc
  · exact hds c hc

/-- The digits of a number are those kept and zeros, for which the exponent makes up. -/
theorem exists_zeros_of_significantDigits {digits : Nat} {exponent exponent' : Int}
    {kept : List Char} (h : significantDigits digits exponent = (kept, exponent')) :
    ∃ zeros : Nat, Nat.toDigits 10 digits = kept ++ List.replicate zeros '0' ∧
      exponent' = exponent + zeros := by
  simp only [significantDigits, Prod.mk.injEq] at h
  obtain ⟨hkept, hexponent⟩ := h
  -- The run of zeros at the front of the reversed digits is the one at their end.
  let run := (Nat.toDigits 10 digits).reverse.takeWhile (· == '0')
  have hrun : run = List.replicate run.length '0' := by
    refine List.eq_replicate_iff.2 ⟨rfl, fun c hc => ?_⟩
    simpa using List.all_eq_true.1 List.all_takeWhile c hc
  have hall : Nat.toDigits 10 digits = kept ++ List.replicate run.length '0' := by
    rw [← hkept, ← List.reverse_replicate, ← hrun, ← List.reverse_append,
      List.takeWhile_append_dropWhile, List.reverse_reverse]
  refine ⟨run.length, hall, ?_⟩
  rw [← hexponent, hkept, hall, List.length_append, List.length_replicate]
  omega

/-- Dropping the zeros at the end of a positive number's digits leaves some digits, and the
exponent makes up for them. -/
theorem significantDigits_spec {digits : Nat} {exponent exponent' : Int} {kept : List Char}
    (hpos : 0 < digits) (h : significantDigits digits exponent = (kept, exponent')) :
    Digits kept ∧ ∃ zeros : Nat, digits = natOfDigits kept * 10 ^ zeros ∧
      exponent' = exponent + zeros := by
  obtain ⟨zeros, hall, hexponent⟩ := exists_zeros_of_significantDigits h
  have hvalue : digits = natOfDigits kept * 10 ^ zeros := by
    have h := congrArg natOfDigits hall
    rwa [natOfDigits_toDigits, natOfDigits_append, natOfDigits_replicate_zero, Nat.add_zero,
      List.length_replicate] at h
  refine ⟨⟨?_, ?_⟩, zeros, hvalue, hexponent⟩
  · rintro rfl
    rw [hvalue] at hpos
    simp [natOfDigits] at hpos
  · intro c hc
    exact (digits_toDigits digits).2 c (by rw [hall]; exact List.mem_append_left _ hc)

/-- The value of a numeral does not change with zeros moved from its digits to its exponent. -/
theorem shifted_value {n k b zeros : Nat} {exponent : Int}
    (h : n * 10 ^ (-(exponent + zeros)).toNat = k * 10 ^ (exponent + zeros).toNat * 10 ^ b) :
    n * 10 ^ (-exponent).toNat = k * 10 ^ zeros * 10 ^ exponent.toNat * 10 ^ b := by
  have hexponents : (exponent + zeros).toNat + (-exponent).toNat
      = zeros + exponent.toNat + (-(exponent + zeros)).toNat := by omega
  have hpos : 0 < 10 ^ (-(exponent + zeros)).toNat := Nat.pow_pos (by decide)
  -- With the negative power on both sides, only the sum of the exponents matters.
  refine Nat.eq_of_mul_eq_mul_right hpos ?_
  calc n * 10 ^ (-exponent).toNat * 10 ^ (-(exponent + zeros)).toNat
    _ = n * 10 ^ (-(exponent + zeros)).toNat * 10 ^ (-exponent).toNat := by ring
    _ = k * 10 ^ b * 10 ^ ((exponent + zeros).toNat + (-exponent).toNat) := by rw [h]; ring
    _ = k * 10 ^ b * 10 ^ (zeros + exponent.toNat + (-(exponent + zeros)).toNat) := by
      rw [hexponents]
    _ = k * 10 ^ zeros * 10 ^ exponent.toNat * 10 ^ b * 10 ^ (-(exponent + zeros)).toNat := by
      ring

/-! ### The full layout -/

/-- A point put among the digits. -/
theorem mantissaText_pointAmong {ds : List Char} {places : Nat} (hds : Digits ds)
    (hlt : places < ds.length) :
    MantissaText (ds.take (ds.length - places) ++ '.' :: ds.drop (ds.length - places))
      (natOfDigits ds) (-(places : Int)) := by
  have htake : AllDigits (ds.take (ds.length - places)) :=
    fun c hc => hds.2 c (List.mem_of_mem_take hc)
  have hdrop : AllDigits (ds.drop (ds.length - places)) :=
    fun c hc => hds.2 c (List.mem_of_mem_drop hc)
  have hne : ds.take (ds.length - places) ≠ [] := by
    rw [Ne, List.take_eq_nil_iff, not_or]
    exact ⟨by omega, hds.1⟩
  have h := MantissaText.pointed htake hdrop (Or.inl hne)
  rwa [List.take_append_drop, List.length_drop,
    show ds.length - (ds.length - places) = places by omega] at h

/-- A point put before the digits, with a zero on its left and more of them on its right. -/
theorem mantissaText_pointBefore {ds : List Char} {places : Nat} (hds : Digits ds)
    (hle : ds.length ≤ places) :
    MantissaText (['0'] ++ '.' :: (List.replicate (places - ds.length) '0' ++ ds))
      (natOfDigits ds) (-(places : Int)) := by
  have hzeros := (allDigits_replicate_zero (places - ds.length)).append hds.2
  have h := MantissaText.pointed (allDigits_replicate_zero 1) hzeros (Or.inl (by simp))
  rwa [natOfDigits_append, natOfDigits_replicate_zero, Nat.zero_mul, Nat.zero_add,
    natOfDigits_append, natOfDigits_replicate_zero, Nat.zero_mul, Nat.zero_add,
    List.length_append, List.length_replicate, Nat.sub_add_cancel hle] at h

/-- Digits with all places written out are a mantissa of the same value, with no power of ten
left above one. -/
theorem exists_mantissaText_positionalText {ds : List Char} (hds : Digits ds) (exponent : Int) :
    ∃ digits below, MantissaText (positionalText false ds exponent) digits below ∧ below ≤ 0 ∧
      digits * 10 ^ (-exponent).toNat
        = natOfDigits ds * 10 ^ exponent.toNat * 10 ^ (-below).toNat := by
  cases exponent with
  | ofNat zeros =>
    have hall : Digits (ds ++ List.replicate zeros '0') :=
      ⟨by simp [hds.1], hds.2.append (allDigits_replicate_zero zeros)⟩
    refine ⟨natOfDigits (ds ++ List.replicate zeros '0'), 0, ?_, Int.le_refl 0, ?_⟩
    · simpa [positionalText] using MantissaText.whole hall
    · -- Zeros behind the digits count as their power of ten.
      have hneg : (-Int.ofNat zeros).toNat = 0 := by rw [Int.ofNat_eq_natCast]; omega
      rw [natOfDigits_append, natOfDigits_replicate_zero, List.length_replicate, hneg]
      simp
  | negSucc below =>
    refine ⟨natOfDigits ds, -((below + 1 : Nat) : Int), ?_, by omega, ?_⟩
    · simp only [positionalText]
      split
      · next hlt => simpa using mantissaText_pointAmong hds hlt
      · next hge => simpa using mantissaText_pointBefore hds (Nat.le_of_not_lt hge)
    · rw [show (-Int.negSucc below).toNat = below + 1 from rfl,
        show (Int.negSucc below).toNat = 0 from rfl, Nat.pow_zero, Nat.mul_one, Int.neg_neg,
        Int.toNat_natCast]

/-! ### The shortest digits -/

/-- Of two candidates, what is taken was read back. -/
theorem readsBack_of_firstReading? {rank : Rank} {place exponent : Int} {candidates : Nat × Nat}
    {digits : Nat} (h : firstReading? rank place candidates = some (digits, exponent)) :
    readsBack rank digits exponent = true := by
  rw [firstReading?] at h
  split at h
  · next hnear =>
    simp only [Option.some.injEq, Prod.mk.injEq] at h
    obtain ⟨rfl, rfl⟩ := h
    exact hnear
  · split at h
    · next hfar =>
      simp only [Option.some.injEq, Prod.mk.injEq] at h
      obtain ⟨rfl, rfl⟩ := h
      exact hfar
    · exact absurd h (by simp)

/-- A candidate was read before it was taken. -/
theorem readsBack_of_shortestAt? {tie : Tie} {rank : Rank} {count digits : Nat} {exponent : Int}
    (h : shortestAt? tie rank count = some (digits, exponent)) :
    readsBack rank digits exponent = true :=
  readsBack_of_firstReading? h

/-- The exact expansion of a magnitude reads back. -/
theorem readsBack_expansion (rank : Rank) :
    readsBack rank (Binary64.units rank * 5 ^ binary64.unitExponent)
      (-(binary64.unitExponent : Int)) = true := by
  rw [readsBack, Binary64.units, Decimal.nearestRank_expansion, beq_self_eq_true]

/-- The shortest digits of a positive magnitude read back. -/
theorem readsBack_shortest {tie : Tie} {rank : Rank} {digits : Nat} {exponent : Int}
    (hpos : 0 < rank.val) (h : shortest tie rank = (digits, exponent)) :
    readsBack rank digits exponent = true := by
  rw [shortest, if_neg (by omega)] at h
  cases hfound : (List.range 17).findSome? fun n => shortestAt? tie rank (n + 1) with
  | none =>
    rw [hfound, Option.getD_none, Prod.mk.injEq] at h
    obtain ⟨rfl, rfl⟩ := h
    exact readsBack_expansion rank
  | some found =>
    rw [hfound, Option.getD_some] at h
    subst h
    obtain ⟨count, -, hcount⟩ := List.exists_of_findSome?_eq_some hfound
    exact readsBack_of_shortestAt? hcount

/-! ### Whole numbers -/

/-- The full text of a positive magnitude is a mantissa that rounds to the magnitude. -/
theorem exists_mantissaText_magnitudeText_of_pos {rank : Rank} (hpos : 0 < rank.val) :
    ∃ digits below, MantissaText (magnitudeText plainStyle rank) digits below ∧
      Decimal.nearestRank binary64 digits below = rank.val := by
  cases hshortest : shortest plainStyle.tie rank with
  | mk digits exponent =>
    cases hkept : significantDigits digits exponent with
    | mk kept exponent' =>
      have htext : magnitudeText plainStyle rank = positionalText false kept exponent' := by
        rw [magnitudeText, if_neg (by omega), hshortest]
        dsimp only
        rw [hkept]
        rfl
      have hback : Decimal.nearestRank binary64 digits exponent = rank.val := by
        have h := readsBack_shortest hpos hshortest
        rwa [readsBack, beq_iff_eq] at h
      have hexponent := Decimal.exponent_le_of_nearestRank binary64 hback hpos rank.isLt
      have hdigits := Decimal.digits_pos_of_nearestRank binary64 hback hpos rank.isLt
      obtain ⟨hkeptDigits, zeros, hvalue, hshift⟩ := significantDigits_spec hdigits hkept
      obtain ⟨n, below, hmantissa, hbelow, hsame⟩ :=
        exists_mantissaText_positionalText hkeptDigits exponent'
      refine ⟨n, below, htext ▸ hmantissa, ?_⟩
      -- The text and the shortest digits are the same quotient.
      rw [Decimal.nearestRank_eq binary64 n (by omega), ← hback,
        Decimal.nearestRank_eq binary64 digits hexponent]
      rw [Int.toNat_of_nonpos hbelow, Nat.pow_zero, Nat.mul_one]
      subst hvalue hshift
      exact Format.nearestRank_congr binary64 (Nat.pow_pos (by decide))
        (Nat.pow_pos (by decide)) (shifted_value hsame)

/-- The full text of a magnitude is a mantissa that rounds to the magnitude. -/
theorem exists_mantissaText_magnitudeText (rank : Rank) :
    ∃ digits below, MantissaText (magnitudeText plainStyle rank) digits below ∧
      Decimal.nearestRank binary64 digits below = rank.val := by
  rcases Nat.eq_zero_or_pos rank.val with hzero | hpos
  · have htext : magnitudeText plainStyle rank = ['0'] := by rw [magnitudeText, if_pos hzero]; rfl
    exact ⟨0, 0, htext ▸ .whole ⟨by simp, allDigits_replicate_zero 1⟩, hzero.symm⟩
  · exact exists_mantissaText_magnitudeText_of_pos hpos

/-- A rank of a magnitude is not beyond the largest number. -/
theorem Binary64.ofRank_val (negative : Bool) (rank : Rank) :
    Binary64.ofRank negative rank.val = .finite negative rank := by
  rw [Binary64.ofRank, dif_pos rank.isLt]

/-- The full text of a finite number is a numeral that rounds to that number. -/
theorem Binary64.exists_numeralText_text (negative : Bool) (rank : Rank) :
    ∃ d, NumeralText ((Binary64.finite negative rank).text plainStyle) d ∧
      d.toBinary64 = .finite negative rank := by
  obtain ⟨digits, below, hmantissa, hrank⟩ := exists_mantissaText_magnitudeText rank
  have hsign : SignText negative (if negative then ['-'] else []) := by
    cases negative with
    | false => exact .absent
    | true => exact .minus
  have hnumeral := NumeralText.intro hsign hmantissa .absent
  rw [List.append_nil, Int.add_zero] at hnumeral
  refine ⟨_, hnumeral, ?_⟩
  rw [Decimal.toBinary64, hrank, Binary64.ofRank_val]

end JsonDoc.Number
