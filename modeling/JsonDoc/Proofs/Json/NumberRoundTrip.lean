import JsonDoc.Proofs.Json.Layout
import JsonDoc.Proofs.Value.Integers
import JsonDoc.Value.Equality

/-!
# `JsonDoc.Proofs.Json.NumberRoundTrip`: numbers that are written and read again

Whatever finite number is written, the text is a numeral that rounds to the number, and it is read
as a finite number. That can be another one: the reader rounds the significand and the power of ten
one by one before it scales, so that `0.9999999999999999` is read as `1`
(`Value.parse_serialize_belowOne`). `Value.parse_serialize_number` says how far away it is at most,
and when it is the same, as it is for the small integers and for all numerals whose significand and
power of ten have no more than 53 bits.
-/

set_option autoImplicit false

namespace JsonDoc

open Number

namespace Json.Grammar

section
variable {rank : Rank} {significand places : Nat} {power : Int}
  (h : Denotes rank significand places power)
include h

/-- The digits that are written for a finite number stay within the largest that can be read as
one. -/
theorem Denotes.magnitude_le (hpos : 0 < rank.val) :
    Decimal.magnitude significand (-(places : Int) + power)
      ≤ Decimal.magnitude largestDigits 292 :=
  h.same ▸ magnitude_shortest_le hpos

/-- The numeral rounds to the magnitude. -/
theorem Denotes.nearestRank_eq (hpos : 0 < rank.val) :
    Decimal.nearestRank binary64 significand (-(places : Int) + power) = rank.val := by
  have hrank := nearestRank_shortest .even hpos
  have hexponent := exponent_le_of_magnitude_le h.pos (h.magnitude_le hpos)
  have hexponents : (binary64.exponents : Int) = 2047 := rfl
  rw [← hrank]
  exact Decimal.nearestRank_congr binary64 (by omega)
    (Decimal.exponent_le_of_nearestRank binary64 hrank hpos rank.isLt) h.same

/-- The numeral is read as a number that is not far away. -/
theorem Denotes.exists_scaledRank? (hpos : 0 < rank.val) :
    ∃ read, scaledRank? significand (-(places : Int) + power) = some read ∧
      read < binary64.magnitudes ∧ Nat.dist rank.val read ≤ 7 ∧
      (-308 ≤ -(places : Int) + power → Nat.dist rank.val read ≤ 2) := by
  obtain ⟨read, hread, hlt⟩ := Json.exists_scaledRank? h.pos h.le (h.magnitude_le hpos)
  have hnearest := h.nearestRank_eq hpos
  have hseven := dist_scaledRank?_le_seven h.pos hread h.le
  have htwo := dist_scaledRank?_le_two h.pos hread
  rw [hnearest] at hseven htwo
  exact ⟨read, hread, hlt, hseven, htwo⟩

end

/-- No character of a number has a meaning in HTML. -/
theorem escapeHtml_numeral {cs : List Char} {d : Decimal} (h : NumeralText cs d) :
    cs.flatMap htmlChar = cs := by
  refine flatMap_htmlChar_eq_self fun c hc hmark => ?_
  have hmarks : ∀ c ∈ marks, continuesNumeral c = false ∧ isSign c = false :=
    List.all_iff_forall_prop.1 (by decide)
  obtain ⟨hcontinues, hsign⟩ := hmarks c hmark
  rcases h.numeralChar hc with h | h
  · rw [hcontinues] at h
    cases h
  · rw [hsign] at h
    cases h

end Json.Grammar

namespace Value

/-- A number is written alike whatever the choices are. -/
theorem serialize_number {x : Binary64} {cs : List Char} {d : Decimal} (options : WriteOptions)
    (htext : numberText x = String.ofList cs) (hnumeral : NumeralText cs d) :
    (number x).serialize options = .ok (String.ofList cs) := by
  have hdepth : ¬options.maxDepth < (number x).depth := Nat.not_lt_zero _
  have hordered : (if options.sortKeys then (number x).sorted else number x) = number x := by
    split <;> rfl
  have hwrite : (number x).write options.layout 0 "" = String.ofList cs := by
    rw [write, htext, String.empty_append]
  have hescape : escapeHtml (String.ofList cs) = String.ofList cs := by
    rw [escapeHtml, String.toList_ofList, Json.Grammar.escapeHtml_numeral hnumeral]
  rw [serialize, if_neg hdepth, hordered]
  dsimp only
  rw [hwrite, hescape, ite_self]

end Value

namespace Number.Binary64

/-- From one number to the other it is at most `count` steps. -/
def Within (count : Nat) (x y : Binary64) : Prop :=
  ∃ place place', x.position? = some place ∧ y.position? = some place' ∧
    (place - place').natAbs ≤ count

/-- Equal numbers are within any distance of each other. -/
theorem within_of_equals {x y : Binary64} (h : x.equals y = true) (count : Nat) :
    x.Within count y := by
  obtain ⟨place, hx, hy⟩ := equals_iff.1 h
  refine ⟨place, place, hx, hy, ?_⟩
  rw [Int.sub_self]
  exact Nat.zero_le count

/-- Numbers of one sign are as far apart as their ranks. -/
theorem within_finite {negative : Bool} {rank read : Rank} {count : Nat}
    (h : Nat.dist rank.val read.val ≤ count) :
    (finite negative read).Within count (finite negative rank) := by
  refine ⟨_, _, rfl, rfl, ?_⟩
  rw [Nat.dist] at h
  split <;> omega

end Number.Binary64

/-- What becomes of a finite number: the characters `cs` that it is written with are the numeral
`d`, which rounds to the number, and they are read as `y`, which is not far away. -/
structure WrittenAs (negative : Bool) (rank : Rank) (limit : Nat) (cs : List Char) (d : Decimal)
    (y : Binary64) : Prop where
  text : numberText (.finite negative rank) = String.ofList cs
  numeral : NumeralText cs d
  rounds : d.toBinary64.equals (.finite negative rank) = true
  nearest : Decimal.nearestRank binary64 d.digits d.exponent = rank.val
  parse : Value.parse limit (utf8 cs) = .ok (.number y)
  finite : y.isFinite = true
  within : y.Within 7 (.finite negative rank)
  within_two : -308 ≤ d.exponent → y.Within 2 (.finite negative rank)
  same : y.equals (.finite negative rank) = true ↔
    Json.scaledRank? d.digits d.exponent = some rank.val
  same_integer : ∀ n, safeInteger? (.finite negative rank) = some n →
    y.equals (.finite negative rank) = true

section
variable {negative : Bool} {rank : Rank}

/-- A small integer is written in digits and read as it was, but for the sign of a zero. -/
theorem writtenAs_of_safeInteger? {n : Int} (limit : Nat)
    (h : safeInteger? (.finite negative rank) = some n) :
    WrittenAs negative rank limit (integerText n) ⟨decide (n < 0), n.natAbs, 0⟩
      (Binary64.finite negative rank).plainZero := by
  obtain ⟨hn, hsafe⟩ := safeInteger?_eq_some_iff.1 h
  have hrank : binary64.nearestRank n.natAbs 1 = rank.val := by
    obtain ⟨whole, hunits, rfl⟩ := Binary64.exists_whole_of_toInt? hn
    have hwhole : (if negative then -(whole : Int) else whole).natAbs = whole := by
      cases negative <;> simp
    rw [hwhole, binary64.nearestRank_whole hunits]
  have hdecimal : Decimal.nearestRank binary64 n.natAbs 0 = rank.val := by
    have hwhole := Decimal.nearestRank_ofNat binary64 n.natAbs (Nat.zero_le _)
    rw [Nat.pow_zero, Nat.mul_one, hrank] at hwhole
    exact hwhole
  -- A power of ten that is one leaves both ways of reading the same digits exact.
  have hscaled : Json.scaledRank? n.natAbs 0 = _ :=
    Json.scaledRank?_of_exact hsafe (by decide) (by decide) (hdecimal.symm ▸ rank.isLt)
  have hequals := Binary64.equals_plainZero hn
  rw [hdecimal] at hscaled
  constructor
  case text => exact Json.Grammar.numberText_eq hn hsafe
  case numeral => exact numeralText_integerText n
  case nearest => exact hdecimal
  case within => exact Binary64.within_of_equals hequals 7
  case within_two => exact fun _ => Binary64.within_of_equals hequals 2
  case same => exact iff_of_true hequals hscaled
  case same_integer => exact fun _ _ => hequals
  case rounds =>
    have hnumber : Decimal.toBinary64 ⟨decide (n < 0), n.natAbs, 0⟩ = Binary64.ofInt n := by
      rw [Decimal.toBinary64, hdecimal, ← hrank]
      rfl
    rwa [hnumber, Binary64.ofInt_of_toInt? hn]
  case parse =>
    have hscalar := Json.Grammar.scalarText_numberText hn hsafe
    have hvalue : Json.Grammar.ValueText 0 (integerText n) _ := hscalar
    have hparse := Value.parse_of_valueText hvalue (Nat.zero_le limit) (Nat.zero_le _)
    rwa [bytesOf_ofList] at hparse
  case finite =>
    rw [Binary64.plainZero]
    split <;> rfl

/-- What was read is the number that was written exactly if the ranks agree; the sign is the same,
and of a zero it does not matter. -/
theorem equals_finite_iff {read : Nat} (hread : read < binary64.magnitudes) :
    (Binary64.ofRank negative read).equals (.finite negative rank) = true ↔ read = rank.val := by
  rw [Binary64.ofRank, dif_pos hread, Binary64.equals_iff]
  constructor
  · rintro ⟨place, hleft, hright⟩
    exact (Binary64.signed_inj (Option.some.inj (hleft.trans hright.symm))).1
  · rintro rfl
    exact ⟨_, rfl, rfl⟩

/-- Any other number is written as a numeral of its shortest digits, which is rounded twice. -/
theorem exists_writtenAs_of_not_safeInteger (limit : Nat)
    (h : safeInteger? (.finite negative rank) = none) :
    ∃ cs d y, WrittenAs negative rank limit cs d y := by
  have hpos : 0 < rank.val := by
    refine Nat.pos_of_ne_zero fun hzero => ?_
    rw [safeInteger?_zero negative hzero] at h
    cases h
  -- Zero is written as an integer, so there are digits that the bounds can speak of.
  obtain ⟨significand, places, power, htext, hdenotes⟩ :=
    Json.Grammar.exists_floatText_magnitudeText hpos
  obtain ⟨read, hread, hlt, hseven, htwo⟩ := hdenotes.exists_scaledRank? hpos
  have hy : Binary64.ofRank negative read = .finite negative ⟨read, hlt⟩ := dif_pos hlt
  have hsign : SignText negative (if negative then ['-'] else []) := by
    cases negative with
    | false => exact .absent
    | true => exact .minus
  have hbound := Nat.lt_of_le_of_lt hdenotes.le (show 10 ^ 17 < 2 ^ 64 by decide)
  have hnearest := hdenotes.nearestRank_eq hpos
  refine ⟨(if negative then ['-'] else []) ++ magnitudeText jsonStyle rank,
    ⟨negative, significand, -(places : Int) + power⟩, .ofRank negative read, ?_⟩
  constructor
  case text =>
    rw [numberText, h]
    rfl
  case numeral => exact htext.numeralText hsign
  case nearest => exact hnearest
  case parse =>
    exact htext.parse hbound hdenotes.fits_power hdenotes.fits hread negative
  case rounds =>
    rw [Decimal.toBinary64, hnearest]
    exact (equals_finite_iff rank.isLt).2 rfl
  case finite =>
    rw [hy]
    rfl
  case within =>
    rw [hy]
    exact Binary64.within_finite hseven
  case within_two =>
    rw [hy]
    exact fun hexponent => Binary64.within_finite (htwo hexponent)
  case same =>
    rw [equals_finite_iff hlt, hread, Option.some.injEq]
  case same_integer =>
    intro n hn
    rw [h] at hn
    cases hn

end

namespace Value

/-- Every finite number is written as a numeral that rounds to it, and what is written is read as a
finite number again, at most seven steps away, and two if the exponent of the numeral is not below
`-308`. It is the same number if the significand and the power of ten that were written come to it
when they are rounded one by one, as the reader does. So it is if neither of them has more than
53 bits, and if the number is an integer of no more than 53 bits itself. -/
theorem parse_serialize_number (negative : Bool) (rank : Rank) (options : WriteOptions)
    (limit : Nat) :
    ∃ text d y,
      (number (.finite negative rank)).serialize options = .ok text ∧
      Decimal.read? text.toList = some (d, []) ∧
      d.toBinary64.equals (.finite negative rank) = true ∧
      Value.parse limit (bytesOf text) = .ok (number y) ∧ y.isFinite = true ∧
      y.Within 7 (.finite negative rank) ∧
      (-308 ≤ d.exponent → y.Within 2 (.finite negative rank)) ∧
      ((number y == number (.finite negative rank)) = true ↔
        Json.scaledRank? d.digits d.exponent = some rank.val) ∧
      (d.digits ≤ 2 ^ 53 → -22 ≤ d.exponent → d.exponent ≤ 22 →
        (number y == number (.finite negative rank)) = true) ∧
      (∀ n, (Binary64.finite negative rank).toInt? = some n → n.natAbs ≤ 2 ^ 53 →
        (number y == number (.finite negative rank)) = true) := by
  -- Integers that are safe are written plainly, all others with a point or an exponent.
  obtain ⟨cs, d, y, h⟩ : ∃ cs d y, WrittenAs negative rank limit cs d y := by
    cases hsafe : safeInteger? (.finite negative rank) with
    | some n => exact ⟨_, _, _, writtenAs_of_safeInteger? limit hsafe⟩
    | none => exact exists_writtenAs_of_not_safeInteger limit hsafe
  have hread := Decimal.read?_append h.numeral (Text.stops_nil _)
  rw [List.append_nil] at hread
  refine ⟨String.ofList cs, d, y, serialize_number options h.text h.numeral, ?_, h.rounds, ?_,
    h.finite, h.within, h.within_two, h.same, fun hdigits hlow hhigh => h.same.2 ?_,
    fun n hn hsafe => h.same_integer n (safeInteger?_eq_some_iff.2 ⟨hn, hsafe⟩)⟩
  · rwa [String.toList_ofList]
  · rw [bytesOf_ofList, h.parse]
  · have hscaled := Json.scaledRank?_of_exact hdigits hlow hhigh (h.nearest.symm ▸ rank.isLt)
    rwa [h.nearest] at hscaled

/-- The greatest number below one. -/
def belowOne : Binary64 := .finite false ⟨1023 * 2 ^ 52 - 1, by decide⟩

/-- A number that is read as another one: its significand is too long by a bit. -/
theorem parse_serialize_belowOne :
    belowOne.isFinite = true ∧
      (number belowOne).serialize {} = .ok "0.9999999999999999" ∧
      (∀ limit, Value.parse limit (bytesOf "0.9999999999999999") = .ok (number (.ofInt 1))) ∧
      (number (.ofInt 1) == number belowOne) = false := by
  have hdigits : Json.Grammar.FloatText "0.9999999999999999".toList 9999999999999999 16 0 :=
    .pointed (Json.Grammar.wholeText_toDigits 0)
      ⟨List.cons_ne_nil '9' _, fun _ hc => List.eq_of_mem_replicate (n := 16) hc ▸ rfl⟩ .absent
  have htext : numberText belowOne = "0.9999999999999999" := by decide +kernel
  have hscaled : Json.scaledRank? 9999999999999999 (-16) = some (binary64.nearestRank 1 1) := by
    decide +kernel
  refine ⟨rfl, serialize_number {} htext (hdigits.numeralText .absent), fun limit => ?_, ?_⟩
  · exact hdigits.parse (by decide) (by decide) (by decide) hscaled false
  · decide +kernel

end Value

end JsonDoc
