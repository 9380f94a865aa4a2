import JsonDoc.Proofs.Json.Generic
import JsonDoc.Proofs.Json.Writing
import JsonDoc.Value.Scalar

/-!
# `JsonDoc.Proofs.Value.Integers`: numbers read and written as integers

A value is read as an integer if its number is one that fits, and a number is written as an integer
if it is one of at most `2 ^ 53`. Both are told by the rational that the number denotes
(`Binary64.toRat?`). The bounds that are compared with are numbers of double precision themselves;
the largest integer of 64 bits is not, and the bound in its place is the next one, `2 ^ 63`
(`toRat?_ofInt_max`).

A number is written as an integer in three places: in a text, in generic JSON and where a document
is taken apart. `integers_exact` tells that all three decide alike, and that nothing is lost: what
is read is the number, and the digits that are written denote it.
-/

set_option autoImplicit false

namespace JsonDoc

open Number

namespace Number

/-! ### The digits of an integer -/

/-- The digits of an integer, with a minus sign in front if it is negative, are a numeral without a
scale. -/
theorem numeralText_integerText (n : Int) :
    NumeralText (integerText n) ⟨decide (n < 0), n.natAbs, 0⟩ := by
  have hsign : SignText (decide (n < 0)) (if n < 0 then ['-'] else []) := by
    split
    · next hneg => exact decide_eq_true hneg ▸ .minus
    · next hneg => exact decide_eq_false hneg ▸ .absent
  have h := NumeralText.intro hsign (.whole (digits_toDigits n.natAbs)) .absent
  rwa [natOfDigits_toDigits, List.append_nil] at h

/-- The digits of an integer read as that integer. -/
theorem read?_integerText (n : Int) :
    Decimal.read? (integerText n) = some (⟨decide (n < 0), n.natAbs, 0⟩, []) := by
  have h := Decimal.read?_append (numeralText_integerText n) (Text.stops_nil _)
  rwa [List.append_nil] at h

/-- Different integers have different digits, since they are read back. -/
theorem integerText_inj {n m : Int} (h : integerText n = integerText m) : n = m := by
  have hread := read?_integerText n
  rw [h, read?_integerText m] at hread
  simp only [Option.some.injEq, Prod.mk.injEq, Decimal.mk.injEq, and_true,
    decide_eq_decide] at hread
  omega

/-- What the numeral of an integer denotes is the integer. -/
theorem toRat_integer (n : Int) : (⟨decide (n < 0), n.natAbs, 0⟩ : Decimal).toRat = n := by
  rw [Decimal.toRat, Decimal.magnitude, zpow_zero, mul_one, Nat.cast_natAbs]
  split
  · next hneg => rw [abs_of_neg (of_decide_eq_true hneg), Int.cast_neg, neg_neg]
  · next hneg => rw [abs_of_nonneg (by simpa using hneg)]

/-- Digits and a minus sign. -/
def plainDigit (c : Char) : Bool := c.isDigit || c == '-'

/-- The text of an integer has neither a point nor an exponent. -/
theorem plainDigit_of_mem_integerText {n : Int} {c : Char} (h : c ∈ integerText n) :
    plainDigit c = true := by
  rw [integerText, List.mem_append] at h
  rw [plainDigit, Bool.or_eq_true]
  rcases h with h | h
  · split at h
    · exact .inr (by simpa using h)
    · cases h
  · exact .inl ((digits_toDigits _).2 c h)

/-- A number that is not written as an integer has a point or an exponent. -/
theorem exists_mem_text_jsonStyle (negative : Bool) (rank : Rank) :
    ∃ c ∈ (Binary64.finite negative rank).text jsonStyle, plainDigit c = false := by
  have hpoint (ds : List Char) (exponent : Int) : '.' ∈ positionalText true ds exponent := by
    cases exponent with
    | ofNat zeros => simp [positionalText]
    | negSucc below =>
      rw [positionalText]
      split <;> simp
  have hmark (ds : List Char) (leading : Int) : 'e' ∈ exponentText ds leading := by
    rw [exponentText]
    split <;> split <;> simp
  -- Whatever notation the style chooses, one of the two marks is in it.
  have hmagnitude : ∃ c ∈ magnitudeText jsonStyle rank, plainDigit c = false := by
    rw [magnitudeText]
    split
    · exact ⟨'.', hpoint _ _, rfl⟩
    · dsimp only
      split
      · exact ⟨'.', hpoint _ _, rfl⟩
      · exact ⟨'e', hmark _ _, rfl⟩
  obtain ⟨c, hmem, hc⟩ := hmagnitude
  exact ⟨c, List.mem_append_right _ hmem, hc⟩

end Number

namespace Value

/-! ### Reading -/

/-- The least integer of 64 bits is a number of double precision. -/
theorem toRat?_ofInt_min : (Binary64.ofInt (-2 ^ 63)).toRat? = some ((-2 ^ 63 : Int) : ℚ) :=
  Binary64.toInt?_eq_some_iff.1 (by decide +kernel)

/-- The largest integer of 64 bits is rounded up. -/
theorem toRat?_ofInt_max : (Binary64.ofInt (2 ^ 63 - 1)).toRat? = some ((2 ^ 63 : Int) : ℚ) :=
  Binary64.toInt?_eq_some_iff.1 (by decide +kernel)

/-- The number passes the test for integers of 64 bits if it is one. -/
theorem fits_iff {x : Binary64} {n : Int} (h : x.toInt? = some n) :
    (!x.isWhole || x.lessThan (.ofInt (-2 ^ 63)) || (Binary64.ofInt (2 ^ 63 - 1)).atMost x)
        = false ↔
      -2 ^ 63 ≤ n ∧ n < 2 ^ 63 := by
  have hrat := Binary64.toInt?_eq_some_iff.1 h
  rw [Bool.or_eq_false_iff, Bool.or_eq_false_iff, Binary64.isWhole_iff.2 ⟨n, h⟩,
    ← Bool.not_eq_true (x.lessThan _), ← Bool.not_eq_true (Binary64.atMost _ x),
    Binary64.lessThan_iff hrat toRat?_ofInt_min, Binary64.atMost_iff toRat?_ofInt_max hrat,
    Int.cast_lt, Int.cast_le, Int.not_lt, Int.not_le]
  simp

/-- A value is read as an integer exactly if its number is one in range, and then as that integer:
the cast does not saturate behind the test. -/
theorem asInt64_eq_ok_iff {v : Value} {k : Int} :
    v.asInt64 = .ok k ↔
      ∃ x, v.asFloat = .ok x ∧ x.toInt? = some k ∧ -2 ^ 63 ≤ k ∧ k < 2 ^ 63 := by
  rw [asInt64]
  constructor
  · intro h
    split at h
    · cases h
    · next x hx =>
      split at h
      · cases h
      · next hfits =>
        rw [Bool.not_eq_true] at hfits
        obtain ⟨n, hn⟩ : ∃ n, x.toInt? = some n := by
          rw [← Binary64.isWhole_iff]
          simpa using (Bool.or_eq_false_iff.1 (Bool.or_eq_false_iff.1 hfits).1).1
        obtain ⟨hlow, hhigh⟩ := (fits_iff hn).1 hfits
        -- In range the cast gives the integer itself.
        rw [Binary64.toInt64_of_toInt? hn hlow hhigh] at h
        cases h
        exact ⟨x, hx, hn, hlow, hhigh⟩
  · rintro ⟨x, hx, hn, hlow, hhigh⟩
    rw [hx]
    dsimp only
    rw [(fits_iff hn).2 ⟨hlow, hhigh⟩, Binary64.toInt64_of_toInt? hn hlow hhigh]
    rfl

/-- Integers of 32 bits are those of 64 bits that are in the smaller range. -/
theorem asInt32_eq_ok_iff {v : Value} {k : Int} :
    v.asInt32 = .ok k ↔ v.asInt64 = .ok k ∧ -2 ^ 31 ≤ k ∧ k < 2 ^ 31 := by
  rw [asInt32]
  cases v.asInt64 with
  | error => simp
  | ok n =>
    simp only [Bool.and_eq_true, decide_eq_true_eq, Except.ok.injEq]
    constructor
    · intro h
      split at h
      · next hrange =>
        cases h
        exact ⟨rfl, hrange⟩
      · cases h
    · rintro ⟨rfl, hrange⟩
      rw [if_pos hrange]

end Value

/-! ### Writing -/

section
variable {x : Binary64} {n : Int}

/-- The test in terms of the rational that the number denotes. -/
theorem safeInteger?_eq_some_iff_toRat? :
    safeInteger? x = some n ↔ x.toRat? = some (n : ℚ) ∧ -2 ^ 53 ≤ n ∧ n ≤ 2 ^ 53 := by
  rw [safeInteger?_eq_some_iff, Binary64.toInt?_eq_some_iff, maxSafeInteger]
  exact and_congr_right fun _ => by omega

/-- A number has the text of an integer if it is written as that integer. -/
theorem numberText_eq_integerText_iff :
    numberText x = String.ofList (integerText n) ↔ safeInteger? x = some n := by
  rw [numberText]
  cases hfinite : x.isFinite with
  | false =>
    -- Neither side holds: `null` is no integer.
    have hnone : safeInteger? x ≠ some n := fun h => by
      rw [isFinite_of_safeInteger? h] at hfinite
      cases hfinite
    refine iff_of_false (fun h => ?_) hnone
    have hmem : 'n' ∈ integerText n := by
      have hnull : integerText n = ['n', 'u', 'l', 'l'] := String.ofList_injective h.symm
      simp [hnull]
    exact absurd (plainDigit_of_mem_integerText hmem) (by decide)
  | true =>
    cases hsafe : safeInteger? x with
    | some m =>
      refine ⟨fun h => ?_, fun h => by cases h; rfl⟩
      exact congrArg some (integerText_inj (String.ofList_injective h))
    | none =>
      refine iff_of_false (fun h => ?_) (by simp)
      cases x with
      | finite negative rank =>
        obtain ⟨c, hmem, hc⟩ := exists_mem_text_jsonStyle negative rank
        have htext : (Binary64.finite negative rank).text jsonStyle = integerText n :=
          String.ofList_injective h
        rw [htext] at hmem
        rw [plainDigit_of_mem_integerText hmem] at hc
        cases hc
      | _ => cases hfinite

/-- Taking a document apart gives an integer for the same numbers as writing it does. -/
theorem numberDatum_eq_integer_iff : numberDatum x = .integer n ↔ safeInteger? x = some n := by
  rw [numberDatum]
  cases hsafe : safeInteger? x with
  | some m =>
    rw [isFinite_of_safeInteger? hsafe]
    simp
  | none => cases x.isFinite <;> simp

/-- Generic JSON has an integer for the same numbers as a text. -/
theorem numeral?_eq_integer_iff : numeral? x = some (.integer n) ↔ safeInteger? x = some n := by
  cases hsafe : safeInteger? x with
  | some m => simp [numeral?_of_some hsafe]
  | none => cases hfinite : x.isFinite <;> simp [numeral?_of_none hsafe, hfinite]

end

/-- A value is read as the integer of 64 bits that its number is, and as one of 32 bits if that
is one. A number is written as an integer, in a text, in generic JSON and where a document is taken
apart, if it is an integer of at most `2 ^ 53`. The digits of an integer denote it. -/
theorem integers_exact :
    (∀ (v : Value) (k : Int), v.asInt64 = .ok k ↔
      ∃ x, v.asFloat = .ok x ∧ x.toRat? = some (k : ℚ) ∧ -2 ^ 63 ≤ k ∧ k < 2 ^ 63) ∧
    (∀ (v : Value) (k : Int),
      v.asInt32 = .ok k ↔ v.asInt64 = .ok k ∧ -2 ^ 31 ≤ k ∧ k < 2 ^ 31) ∧
    (∀ (x : Binary64) (n : Int),
      (numberText x = String.ofList (integerText n) ↔
        x.toRat? = some (n : ℚ) ∧ -2 ^ 53 ≤ n ∧ n ≤ 2 ^ 53) ∧
      (numeral? x = some (.integer n) ↔
        x.toRat? = some (n : ℚ) ∧ -2 ^ 53 ≤ n ∧ n ≤ 2 ^ 53) ∧
      (numberDatum x = .integer n ↔
        x.toRat? = some (n : ℚ) ∧ -2 ^ 53 ≤ n ∧ n ≤ 2 ^ 53)) ∧
    ∀ n : Int, ∃ d, Decimal.read? (integerText n) = some (d, []) ∧ d.toRat = n := by
  refine ⟨fun v k => ?_, fun v k => Value.asInt32_eq_ok_iff, fun x n => ?_, fun n => ?_⟩
  · simp only [Value.asInt64_eq_ok_iff, Binary64.toInt?_eq_some_iff]
  · rw [numberText_eq_integerText_iff, numeral?_eq_integer_iff, numberDatum_eq_integer_iff,
      safeInteger?_eq_some_iff_toRat?]
    exact ⟨Iff.rfl, Iff.rfl, Iff.rfl⟩
  · exact ⟨_, read?_integerText n, toRat_integer n⟩

/-- Numbers at the ends of the ranges. The least integer of 64 bits is read, and so is the greatest
one that is a number of double precision; the greatest of all is rounded up, and refused. The range
of 32 bits ends where it should, and `2 ^ 53` is still written as an integer. -/
theorem integers_exact_ends :
    (Value.ofInt (-2 ^ 63)).asInt64 = .ok (-2 ^ 63) ∧
      (Value.ofInt (2 ^ 63 - 2 ^ 10)).asInt64 = .ok (2 ^ 63 - 2 ^ 10) ∧
      (∀ k, (Value.ofInt (2 ^ 63 - 1)).asInt64 ≠ .ok k) ∧
      (Value.ofInt (-2 ^ 31)).asInt32 = .ok (-2 ^ 31) ∧
      (Value.ofInt (2 ^ 31 - 1)).asInt32 = .ok (2 ^ 31 - 1) ∧
      (∀ k, (Value.ofInt (2 ^ 31)).asInt32 ≠ .ok k) ∧
      numberText (.ofInt (2 ^ 53)) = String.ofList (integerText (2 ^ 53)) ∧
      numeral? (.ofInt (-2 ^ 53)) = some (.integer (-2 ^ 53)) ∧
      ∀ n, numberDatum (.ofInt (2 ^ 53 + 2)) ≠ .integer n := by
  obtain ⟨hlong, hshort, hwritten, -⟩ := integers_exact
  have hrat {n m : Int} (h : (Binary64.ofInt n).toInt? = some m) :
      (Binary64.ofInt n).toRat? = some (m : ℚ) := Binary64.toInt?_eq_some_iff.1 h
  have hfloat (n : Int) : (Value.ofInt n).asFloat = .ok (.ofInt n) := rfl
  have hread {n : Int} (h : (Binary64.ofInt n).toInt? = some n) (hlow : -2 ^ 63 ≤ n)
      (hhigh : n < 2 ^ 63) : (Value.ofInt n).asInt64 = .ok n :=
    (hlong _ _).2 ⟨_, hfloat n, hrat h, hlow, hhigh⟩
  have hpower : (Value.ofInt (2 ^ 31)).asInt64 = .ok (2 ^ 31) :=
    hread (by decide +kernel) (by decide) (by decide)
  refine ⟨hread (by decide +kernel) (by decide) (by decide),
    hread (by decide +kernel) (by decide) (by decide), ?_, ?_, ?_, ?_, ?_, ?_, ?_⟩
  · -- The number is `2 ^ 63`, the first one beyond the end.
    intro k h
    obtain ⟨x, hx, hk, -, hhigh⟩ := (hlong _ _).1 h
    obtain rfl := Except.ok.inj ((hfloat _).symm.trans hx)
    rw [Value.toRat?_ofInt_max, Option.some.injEq, Int.cast_inj] at hk
    omega
  · exact (hshort _ _).2 ⟨hread (by decide +kernel) (by decide) (by decide), by decide, by decide⟩
  · exact (hshort _ _).2 ⟨hread (by decide +kernel) (by decide) (by decide), by decide, by decide⟩
  · intro k h
    obtain ⟨hk, -, hhigh⟩ := (hshort _ _).1 h
    rw [hpower, Except.ok.injEq] at hk
    omega
  · exact (hwritten _ _).1.2 ⟨hrat (by decide +kernel), by decide, by decide⟩
  · exact (hwritten _ _).2.1.2 ⟨hrat (by decide +kernel), by decide, by decide⟩
  · intro n h
    obtain ⟨hn, -, hhigh⟩ := (hwritten _ _).2.2.1 h
    have hsum : (Binary64.ofInt (2 ^ 53 + 2)).toRat? = some ((2 ^ 53 + 2 : Int) : ℚ) :=
      hrat (by decide +kernel)
    rw [hsum, Option.some.injEq, Int.cast_inj] at hn
    omega

end JsonDoc
