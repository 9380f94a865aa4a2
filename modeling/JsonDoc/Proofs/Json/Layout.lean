import JsonDoc.Number.Written
import JsonDoc.Proofs.Json.Floats
import JsonDoc.Proofs.Json.Scaled

/-!
# `JsonDoc.Proofs.Json.Layout`: the texts of numbers that are not small integers

The shortest digits of such a number are written with zeros behind them, with a point among them,
with a point and zeros before them, or with an exponent. Each of the four is a JSON number with a
point or an exponent (`exists_floatText_layout`), and its significand and power of ten make up the
value of the shortest digits again (`exists_floatText_magnitudeText`). They need not be the shortest
digits themselves, as a whole number is given a zero behind a point. But they are seventeen at most,
so that the reader keeps them all.
-/

set_option autoImplicit false

namespace JsonDoc.Json.Grammar

open Number

/-! ### Layouts -/

/-- Digits that do not start with a zero are those of a whole number. -/
theorem wholeText_of_head {ds : List Char} (hds : Digits ds) (hhead : ds.head? ≠ some '0') :
    WholeText ds :=
  ⟨hds, fun h => absurd h hhead⟩

/-- The mark of an exponent with its sign and digits. -/
theorem exponentText_mark (leading : Int) :
    ExponentText ((if leading < 0 then ['e', '-'] else ['e', '+'])
      ++ Nat.toDigits 10 leading.natAbs) leading := by
  have hdigits := digits_toDigits leading.natAbs
  split
  · next hneg =>
    have hmark := ExponentText.marked (.inl rfl) .minus hdigits
    rwa [natOfDigits_toDigits, if_pos rfl,
      show -(leading.natAbs : Int) = leading by omega] at hmark
  · next hneg =>
    have hmark := ExponentText.marked (.inl rfl) .plus hdigits
    rwa [natOfDigits_toDigits, if_neg (by decide),
      show (leading.natAbs : Int) = leading by omega] at hmark

section
variable {ds : List Char} (hds : Digits ds) (hhead : ds.head? ≠ some '0')
include hds hhead

/-- Zeros behind the digits, and a point with another one. -/
theorem floatText_zerosBehind (zeros : Nat) :
    FloatText (positionalText true ds (.ofNat zeros)) (natOfDigits ds * 10 ^ (zeros + 1)) 1 0 := by
  have hwhole : WholeText (ds ++ List.replicate zeros '0') := by
    refine wholeText_of_head ⟨?_, hds.2.append (allDigits_replicate_zero zeros)⟩ ?_
    · exact List.append_ne_nil_of_left_ne_nil hds.1 _
    · rwa [List.head?_append_of_ne_nil _ hds.1]
  have hvalue : natOfDigits (ds ++ List.replicate zeros '0' ++ ['0'])
      = natOfDigits ds * 10 ^ (zeros + 1) := by
    rw [List.append_assoc, natOfDigits_append, ← List.replicate_succ', natOfDigits_replicate_zero,
      List.length_replicate, Nat.add_zero]
  have hzero : Digits ['0'] := ⟨List.cons_ne_nil '0' [], allDigits_replicate_zero 1⟩
  have htext := FloatText.pointed hwhole hzero .absent
  rwa [hvalue] at htext

/-- A point among the digits. -/
theorem floatText_pointAmong {places : Nat} (hpos : 0 < places) (hlt : places < ds.length) :
    FloatText (ds.take (ds.length - places) ++ ['.'] ++ ds.drop (ds.length - places))
      (natOfDigits ds) places 0 := by
  have htake : ds.take (ds.length - places) ≠ [] := by
    rw [Ne, List.take_eq_nil_iff, not_or]
    exact ⟨by omega, hds.1⟩
  have hdrop : ds.drop (ds.length - places) ≠ [] := by
    rw [Ne, List.drop_eq_nil_iff]
    omega
  have hwhole : WholeText (ds.take (ds.length - places)) := by
    refine wholeText_of_head ⟨htake, fun c hc => hds.2 c (List.mem_of_mem_take hc)⟩ ?_
    rwa [List.head?_take, if_neg (by omega)]
  have hbehind : Digits (ds.drop (ds.length - places)) :=
    ⟨hdrop, fun c hc => hds.2 c (List.mem_of_mem_drop hc)⟩
  have htext := FloatText.pointed hwhole hbehind .absent
  rw [List.take_append_drop, List.length_drop, List.append_nil,
    show ds.length - (ds.length - places) = places by omega] at htext
  rwa [List.append_assoc]

omit hhead in
/-- A point before the digits, between zeros. -/
theorem floatText_pointBefore {places : Nat} (hle : ds.length ≤ places) :
    FloatText (['0', '.'] ++ List.replicate (places - ds.length) '0' ++ ds) (natOfDigits ds) places
      0 := by
  have hfs : Digits (List.replicate (places - ds.length) '0' ++ ds) :=
    ⟨List.append_ne_nil_of_right_ne_nil _ hds.1, (allDigits_replicate_zero _).append hds.2⟩
  have hvalue : natOfDigits (['0'] ++ (List.replicate (places - ds.length) '0' ++ ds))
      = natOfDigits ds := by
    rw [← List.append_assoc, natOfDigits_append, ← List.replicate_one, ← List.replicate_add,
      natOfDigits_replicate_zero, Nat.zero_mul, Nat.zero_add]
  have hwhole : WholeText ['0'] := wholeText_toDigits 0
  have htext := FloatText.pointed hwhole hfs .absent
  rw [hvalue, List.length_append, List.length_replicate, Nat.sub_add_cancel hle,
    List.append_nil] at htext
  rwa [List.append_assoc]

/-- The first digit, a point if there are more, and the exponent of the first. -/
theorem floatText_exponentText (leading : Int) :
    FloatText (exponentText ds leading) (natOfDigits ds) (ds.length - 1) leading := by
  have hmark := exponentText_mark leading
  rw [exponentText, List.append_assoc]
  cases ds with
  | nil => exact absurd rfl hds.1
  | cons c ds =>
    cases ds with
    | nil =>
      refine .marked (wholeText_of_head hds hhead) hmark (List.append_ne_nil_of_left_ne_nil ?_ _)
      split <;> exact List.cons_ne_nil _ _
    | cons d ds =>
      have hdigits : Digits [c] := ⟨List.cons_ne_nil c [], fun _ hmem =>
        hds.2 _ (List.mem_cons.2 (.inl (List.mem_singleton.1 hmem)))⟩
      have hfs : Digits (d :: ds) :=
        ⟨List.cons_ne_nil d ds, fun _ hmem => hds.2 _ (List.mem_cons_of_mem c hmem)⟩
      exact .pointed (wholeText_of_head hdigits hhead) hfs hmark

/-- Digits laid out in the style of JSON are a numeral of the same value, of seventeen digits at
most, with exponents that are not much larger. -/
theorem exists_floatText_layout (hle : natOfDigits ds ≤ 10 ^ 17) (exponent : Int) :
    ∃ significand places power,
      FloatText (if jsonStyle.positional (exponent + ds.length - 1) then
          positionalText true ds exponent
        else exponentText ds (exponent + ds.length - 1)) significand places power ∧
      natOfDigits ds ≤ significand ∧ significand ≤ 10 ^ 17 ∧
      places ≤ exponent.natAbs + ds.length + 1 ∧ power.natAbs ≤ exponent.natAbs + ds.length ∧
      Decimal.magnitude significand (-(places : Int) + power)
        = Decimal.magnitude (natOfDigits ds) exponent := by
  have hlength := List.length_pos_iff.2 hds.1
  split
  · next hpositional =>
    rw [jsonStyle, Bool.and_eq_true, decide_eq_true_eq, decide_eq_true_eq] at hpositional
    -- Zeros stand behind the digits, or the point falls among or before them.
    cases exponent with
    | ofNat zeros =>
      -- `.0` is written as well: one digit more, and one power of ten less.
      refine ⟨_, 1, 0, floatText_zerosBehind hds hhead zeros, ?_, ?_, by omega, by simp, ?_⟩
      · exact Nat.le_mul_of_pos_right _ (Nat.pow_pos (by decide))
      · have hlt := Nat.mul_lt_mul_of_pos_right (natOfDigits_lt hds.2)
          (Nat.pow_pos (show 0 < 10 by decide) (n := zeros + 1))
        rw [← Nat.pow_add] at hlt
        rw [Int.ofNat_eq_natCast] at hpositional
        exact Nat.le_trans (Nat.le_of_lt hlt) (Nat.pow_le_pow_right (by decide) (by omega))
      · rw [Decimal.magnitude_mul_pow]
        congr 1
        rw [Int.ofNat_eq_natCast]
        omega
    | negSucc below =>
      rw [positionalText]
      have hexponent : -((below + 1 : Nat) : Int) + 0 = Int.negSucc below := by omega
      have hplaces : below + 1 ≤ (Int.negSucc below).natAbs + ds.length + 1 := by omega
      split
      · next hlt =>
        refine ⟨_, below + 1, 0, floatText_pointAmong hds hhead (Nat.succ_pos below) hlt,
          Nat.le_refl _, hle, hplaces, by simp, ?_⟩
        rw [hexponent]
      · next hge =>
        refine ⟨_, below + 1, 0, floatText_pointBefore hds (Nat.le_of_not_lt hge),
          Nat.le_refl _, hle, hplaces, by simp, ?_⟩
        rw [hexponent]
  · refine ⟨_, _, _, floatText_exponentText hds hhead _, Nat.le_refl _, hle, by omega, by omega, ?_⟩
    congr 1
    omega

end

/-! ### The shortest digits -/

section
variable {rank : Rank} {digits : Nat} {exponent exponent' : Int} {kept : List Char}

/-- The first of the digits that are kept is not zero. -/
theorem head?_significantDigits (hpos : 0 < digits)
    (h : significantDigits digits exponent = (kept, exponent')) : kept.head? ≠ some '0' := by
  obtain ⟨hdigits, -⟩ := significantDigits_spec hpos h
  obtain ⟨zeros, hall, -⟩ := exists_zeros_of_significantDigits h
  have hhead := head?_toDigits_ne hpos
  rwa [hall, List.head?_append_of_ne_nil _ hdigits.1] at hhead

/-- A numeral of at most seventeen digits with the value of the shortest ones of a magnitude. -/
structure Denotes (rank : Rank) (significand places : Nat) (power : Int) : Prop where
  pos : 0 < significand
  le : significand ≤ 10 ^ 17
  fits_power : Fits power
  fits : Fits (-(places : Int) + power)
  same : Decimal.magnitude significand (-(places : Int) + power)
    = Decimal.magnitude (shortest .even rank).1 (shortest .even rank).2

/-- Dropping the zeros at the end of at most seventeen digits changes the exponent by no more than
their number, so that it still fits in 31 bits. -/
theorem length_le_of_significantDigits (hle : digits ≤ 10 ^ 17)
    (h : significantDigits digits exponent = (kept, exponent')) :
    kept.length ≤ 18 ∧ exponent ≤ exponent' ∧ exponent' ≤ exponent + 18 := by
  obtain ⟨zeros, hall, hexponent⟩ := exists_zeros_of_significantDigits h
  have hlength : (Nat.toDigits 10 digits).length ≤ 18 :=
    (Nat.length_toDigits_le_iff (by decide) (by decide)).2 (Nat.lt_of_le_of_lt hle (by decide))
  rw [hall, List.length_append, List.length_replicate] at hlength
  omega

/-- The shortest digits are positive, and their exponent is small. -/
theorem bounds_of_shortest (hpos : 0 < rank.val) (h : shortest .even rank = (digits, exponent)) :
    0 < digits ∧ exponent.natAbs ≤ 2047 := by
  have hrank : Decimal.nearestRank binary64 digits exponent = rank.val := by
    have hshortest := nearestRank_shortest .even hpos
    rwa [h] at hshortest
  have hdigits := Decimal.digits_pos_of_nearestRank binary64 hrank hpos rank.isLt
  have hhigh := Decimal.exponent_le_of_nearestRank binary64 hrank hpos rank.isLt
  have hlow := Decimal.le_exponent_of_nearestRank binary64 (hrank.symm ▸ hpos)
  have hlog : digits.log2 < 60 := (Nat.log2_lt (Nat.ne_of_gt hdigits)).2
    (Nat.lt_of_le_of_lt (digits_le_of_shortest hpos h) (by decide))
  have hexponents : (binary64.exponents : Int) = 2047 := rfl
  have hunit : (binary64.unitExponent : Int) = 1074 := rfl
  exact ⟨hdigits, by omega⟩

/-- A positive magnitude is written as a numeral of the value of its shortest digits. -/
theorem exists_floatText_magnitudeText (hpos : 0 < rank.val) :
    ∃ significand places power,
      FloatText (magnitudeText jsonStyle rank) significand places power ∧
        Denotes rank significand places power := by
  cases hshortest : shortest .even rank with
  | mk digits exponent =>
    cases hkept : significantDigits digits exponent with
    | mk kept exponent' =>
      obtain ⟨hdigits, hexponent⟩ := bounds_of_shortest hpos hshortest
      have hbound := digits_le_of_shortest hpos hshortest
      obtain ⟨hds, zeros, hvalue, hshift⟩ := significantDigits_spec hdigits hkept
      have hhead := head?_significantDigits hdigits hkept
      obtain ⟨hlength, hle, hle'⟩ := length_le_of_significantDigits hbound hkept
      -- Zeros at the end are dropped, and some digit is left since the shortest ones are not zero.
      have hpositive : 0 < natOfDigits kept := by
        refine Nat.pos_of_ne_zero fun hzero => ?_
        rw [hvalue, hzero, Nat.zero_mul] at hdigits
        exact Nat.lt_irrefl 0 hdigits
      have hkeptLe : natOfDigits kept ≤ 10 ^ 17 :=
        Nat.le_trans (hvalue ▸ Nat.le_mul_of_pos_right _ (Nat.pow_pos (by decide))) hbound
      obtain ⟨significand, places, power, htext, hpos', hle17, hplaces, hpower, hsame⟩ :=
        exists_floatText_layout hds hhead hkeptLe exponent'
      refine ⟨significand, places, power, ?_, ?_, hle17, ?_, ?_, ?_⟩
      · rw [magnitudeText, if_neg (by omega), show jsonStyle.tie = .even from rfl, hshortest]
        dsimp only
        rwa [hkept]
      · omega
      · rw [Fits]
        omega
      · rw [Fits]
        omega
      · rw [hsame, hshift, ← Decimal.magnitude_mul_pow, ← hvalue, hshortest]

end

end JsonDoc.Json.Grammar
