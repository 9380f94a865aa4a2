import JsonDoc.Proofs.Json.Reading

/-!
# `JsonDoc.Proofs.Json.Floats`: numbers with a point or an exponent

`FloatText` is the grammar of JSON numbers that are not integers: the digits of a whole number,
and after them a point with more digits, an exponent, or both. The digits on both sides of the point
make one significand. If it fits in 64 bits, and the exponents in 31, then the reader drops none of
them, and what it scales is the number that the text denotes (`FloatText.readNumeral_append`).
-/

set_option autoImplicit false

namespace JsonDoc.Json.Grammar

open Number

/-- A number with a point or an exponent: its digits without the point, how many of them stand
behind it, and the exponent. -/
inductive FloatText : List Char → Nat → Nat → Int → Prop where
  | pointed {ds fs mark : List Char} {power : Int} : WholeText ds → Digits fs →
      ExponentText mark power →
      FloatText (ds ++ '.' :: (fs ++ mark)) (natOfDigits (ds ++ fs)) fs.length power
  | marked {ds mark : List Char} {power : Int} : WholeText ds → ExponentText mark power →
      mark ≠ [] → FloatText (ds ++ mark) (natOfDigits ds) 0 power

/-- The text is a decimal numeral of the value that it is read for. -/
theorem FloatText.numeralText {cs : List Char} {significand places : Nat} {power : Int}
    (h : FloatText cs significand places power) {negative : Bool} {sign : List Char}
    (hsign : SignText negative sign) :
    NumeralText (sign ++ cs) ⟨negative, significand, -(places : Int) + power⟩ := by
  cases h with
  | @pointed ds fs mark _ hds hfs hmark =>
    have hmantissa := MantissaText.pointed hds.digits.2 hfs.2 (.inl hds.digits.1)
    have hnumeral := NumeralText.intro hsign hmantissa hmark
    rwa [List.append_assoc, List.append_assoc, List.cons_append] at hnumeral
  | marked hds hmark =>
    have hnumeral := NumeralText.intro hsign (.whole hds.digits) hmark
    rwa [List.append_assoc] at hnumeral

/-- The exponent fits in 31 bits. -/
def Fits (exponent : Int) : Prop := exponent.natAbs < 2 ^ 31

instance : DecidablePred Fits := fun exponent => Nat.decLt exponent.natAbs (2 ^ 31)

/-- An exponent that fits is not saturated. -/
theorem saturated_of_fits {exponent : Int} (h : Fits exponent) : saturated exponent = exponent := by
  rw [Fits] at h
  rw [saturated]
  omega

/-! ### The exponent -/

section
variable {significand : Nat} {exponent : Int} {rest : List UInt8}

/-- A sign in front of a digit. -/
theorem match_sign {below : Bool} {sign : List Char} (hsign : SignText below sign) {b : UInt8}
    (hdigit : isDigit b = true) (bytes : List UInt8) :
    (match utf8 sign ++ b :: bytes with
      | 0x2B :: rest => (false, rest)
      | 0x2D :: rest => (true, rest)
      | cs => (false, cs)) = (below, b :: bytes) := by
  cases hsign with
  | plus | minus => rfl
  | absent =>
    rw [utf8_nil, List.nil_append]
    split
    · next heq => exact absurd ((List.cons.inj heq).1 ▸ hdigit) (by decide)
    · next heq => exact absurd ((List.cons.inj heq).1 ▸ hdigit) (by decide)
    · rfl

/-- The digits of an exponent are read with their sign, if they fit in 31 bits, and added to the
exponent so far. -/
theorem readExponent_append (negative : Bool) {below : Bool} {sign ds : List Char}
    (hsign : SignText below sign) (hds : Digits ds) (hbound : natOfDigits ds < 2 ^ 31)
    (hrest : Digitless rest) :
    readExponent negative significand exponent (utf8 (sign ++ ds) ++ rest)
      = floatNumeral negative significand
          (saturated (if below then exponent - natOfDigits ds else exponent + natOfDigits ds))
          rest := by
  obtain ⟨hne, hdigits⟩ := hds
  obtain ⟨c, ds, rfl⟩ := List.exists_cons_of_ne_nil hne
  obtain ⟨hc, htail⟩ := List.forall_mem_cons.1 hdigits
  -- The reader takes its first digit apart from the others, so the count starts at that digit.
  obtain ⟨b, hb, hdigit, hvalue⟩ := byte_of_isDigit hc
  have hread : takeDigits (2 ^ 31) (digitValue b) 0 (utf8 ds ++ rest)
      = (natOfDigits (c :: ds), 0 + ds.length, rest) := by
    have hstart : natOfDigits (c :: ds) = Nat.ofDigitChars 10 ds (digitValue b) := by
      rw [hvalue, natOfDigits, List.foldl_cons, Nat.mul_zero, Nat.zero_add]
      rfl
    rw [hstart] at hbound ⊢
    exact takeDigits_append htail hbound 0 hrest
  have hbytes : utf8 (sign ++ c :: ds) ++ rest = utf8 sign ++ b :: (utf8 ds ++ rest) := by
    simp [hb]
  have hmatch := match_sign hsign hdigit (utf8 ds ++ rest)
  rw [hbytes]
  -- One case for each way out of the reader. The first two end in front of the digits, the next two
  -- after too large a number; `hmatch` and `hread` rule all four out.
  fun_cases readExponent negative significand exponent (utf8 sign ++ b :: (utf8 ds ++ rest)) with
  | case1 below' h => cases hmatch.symm.trans h
  | case2 below' c' rest' hc' h =>
    cases hmatch.symm.trans h
    simp [hdigit] at hc'
  | case3 below' c' rest' hc' size taken d more hd hhuge h htake =>
    cases hmatch.symm.trans h
    cases hread.symm.trans htake
    rw [hrest d rfl] at hd
    cases hd
  | case4 below' c' rest' hc' size taken d more hd hhuge h htake =>
    cases hmatch.symm.trans h
    cases hread.symm.trans htake
    rw [hrest d rfl] at hd
    cases hd
  | case5 below' c' rest' hc' size taken d more hd h htake =>
    cases hmatch.symm.trans h
    cases hread.symm.trans htake
    rfl
  | case6 below' c' rest' hc' size taken h htake =>
    cases hmatch.symm.trans h
    cases hread.symm.trans htake
    rfl

/-- What stands behind the significand of a number is read to its end. -/
theorem readScale_append (negative : Bool) {mark : List Char} {power : Int}
    (hmark : ExponentText mark power) (hpower : Fits power) (hfits : Fits (exponent + power))
    (hrest : Separates rest) :
    readScale negative significand exponent (utf8 mark ++ rest)
      = floatNumeral negative significand (exponent + power) rest := by
  cases hmark with
  | absent =>
    rw [utf8_nil, List.nil_append, Int.add_zero]
    -- The reader looks at one byte, and neither letter of an exponent can stand here.
    cases rest with
    | nil => rfl
    | cons b rest =>
      obtain ⟨-, -, he, hE⟩ := hrest.head_ne
      rw [readScale.eq_def]
      split
      · next heq => exact absurd (List.cons.inj heq).1 he
      · next heq => exact absurd (List.cons.inj heq).1 hE
      · rfl
  | @marked mark below sign ds hmark hsign hds =>
    have hbound : natOfDigits ds < 2 ^ 31 := by
      rw [Fits] at hpower
      cases below <;> simpa using hpower
    have hsum : (if below then exponent - natOfDigits ds else exponent + natOfDigits ds)
        = exponent + (if below then -(natOfDigits ds : Int) else natOfDigits ds) := by
      cases below <;> simp [Int.sub_eq_add_neg]
    have hread : readExponent negative significand exponent (utf8 (sign ++ ds) ++ rest) = _ :=
      readExponent_append negative hsign hds hbound hrest.digitless
    rw [hsum, saturated_of_fits hfits] at hread
    rcases hmark with rfl | rfl <;> exact hread

/-! ### The significand -/

/-- What comes after the significand of a number is no digit. -/
theorem digitless_mark {mark : List Char} {power : Int} (hmark : ExponentText mark power)
    (hrest : Separates rest) : Digitless (utf8 mark ++ rest) := by
  cases hmark with
  | absent => exact hrest.digitless
  | marked hmark => rcases hmark with rfl | rfl <;> exact digitless_cons (by decide) _

/-- The digits behind a point go on with the significand and count down the exponent, before a mark
is read. -/
theorem readFraction_append (negative : Bool) {fs mark : List Char} {power : Int}
    (hfs : Digits fs) (hbound : Nat.ofDigitChars 10 fs significand < 2 ^ 64)
    (hmark : ExponentText mark power) (hpower : Fits power)
    (hfits : Fits (exponent - fs.length + power)) (hrest : Separates rest) :
    readFraction negative significand exponent (utf8 (fs ++ mark) ++ rest)
      = floatNumeral negative (Nat.ofDigitChars 10 fs significand) (exponent - fs.length + power)
          rest := by
  have hdigitless := digitless_mark hmark hrest
  have htake := takeDigits_append hfs.2 hbound 0 hdigitless
  have hpos : 0 + fs.length ≠ 0 := by
    have := List.length_pos_iff.2 hfs.1
    omega
  rw [utf8_append, List.append_assoc, readFraction, htake]
  simp only [skipDigits_of_digitless hdigitless, Nat.add_zero, if_neg hpos]
  rw [Nat.zero_add]
  exact readScale_append negative hmark hpower hfits hrest

/-- A number with a point or an exponent is read for what it denotes, and then rounded. -/
theorem FloatText.readNumeral_append {cs : List Char} {places : Nat} {power : Int}
    (h : FloatText cs significand places power) (hbound : significand < 2 ^ 64)
    (hpower : Fits power) (hfits : Fits (-(places : Int) + power)) (negative : Bool)
    (hrest : Separates rest) :
    readNumeral negative (utf8 cs ++ rest)
      = floatNumeral negative significand (-(places : Int) + power) rest := by
  cases h with
  | @pointed ds fs mark _ hds hfs hmark =>
    -- The reader counts through the point, so the whole part is the start of the fraction's count.
    have hsplit : natOfDigits (ds ++ fs) = Nat.ofDigitChars 10 fs (natOfDigits ds) :=
      Nat.ofDigitChars_append 0
    rw [hsplit] at hbound ⊢
    have hbytes : utf8 (ds ++ '.' :: (fs ++ mark)) ++ rest
        = utf8 ds ++ 0x2E :: (utf8 (fs ++ mark) ++ rest) := by
      rw [utf8_append, List.append_assoc]
      rfl
    rw [hbytes, readNumeral_whole negative hds (Nat.lt_of_le_of_lt (le_ofDigitChars fs _) hbound)
      (digitless_cons (by decide) _)]
    rw [← Int.zero_sub] at hfits ⊢
    exact readFraction_append negative hfs hbound hmark hpower hfits hrest
  | @marked ds mark _ hds hmark hne =>
    rw [Int.natCast_zero, Int.neg_zero] at hfits ⊢
    have hscale : readScale negative (natOfDigits ds) 0 (utf8 mark ++ rest) = _ :=
      readScale_append negative hmark hpower hfits hrest
    rw [utf8_append, List.append_assoc, readNumeral_whole negative hds hbound
      (digitless_mark hmark hrest), ← hscale]
    cases hmark with
    | absent => exact absurd rfl hne
    | marked hmark => rcases hmark with rfl | rfl <;> rfl

/-! ### The document -/

/-- A text that is one scalar is the document of that scalar. -/
theorem parse_of_readScalar {limit : Nat} {b : UInt8} {bytes : List UInt8} {v : Value}
    (hopens : opensScalar b = true) (h : readScalar Value.builder b bytes = .ok (v, [])) :
    Value.parse limit (b :: bytes) = .ok v := by
  rw [Value.parse, readText, readAll, readValue_scalar hopens, h]
  rfl

/-- A number starts with a digit, by which the reader knows it from other scalars. -/
theorem FloatText.exists_digit {cs : List Char} {places : Nat} {power : Int}
    (h : FloatText cs significand places power) :
    ∃ b bytes, utf8 cs = b :: bytes ∧ isDigit b = true := by
  have hfirst {ds more : List Char} (hds : WholeText ds) :
      ∃ b bytes, utf8 (ds ++ more) = b :: bytes ∧ isDigit b = true := by
    obtain ⟨c, ds, rfl⟩ := List.exists_cons_of_ne_nil hds.digits.1
    obtain ⟨b, hb, hdigit, -⟩ := byte_of_isDigit (hds.digits.2 c List.mem_cons_self)
    exact ⟨b, utf8 (ds ++ more), by rw [List.cons_append, utf8_cons, hb, List.singleton_append],
      hdigit⟩
  cases h with
  | pointed hds => exact hfirst hds
  | marked hds => exact hfirst hds

/-- The text of a number with a point or an exponent is read as a document. -/
theorem FloatText.parse {cs : List Char} {places rank limit : Nat} {power : Int}
    (h : FloatText cs significand places power) (hbound : significand < 2 ^ 64)
    (hpower : Fits power) (hfits : Fits (-(places : Int) + power))
    (hrank : scaledRank? significand (-(places : Int) + power) = some rank) (negative : Bool) :
    Value.parse limit (utf8 ((if negative then ['-'] else []) ++ cs))
      = .ok (.number (.ofRank negative rank)) := by
  have hread := h.readNumeral_append hbound hpower hfits negative separates_nil
  rw [List.append_nil, floatNumeral, hrank] at hread
  -- A value opens with its sign or with its first digit, and the scalar reader is chosen by it.
  cases negative with
  | true =>
    have hscalar : readScalar Value.builder 0x2D (utf8 cs)
        = .ok (.number (.ofRank true rank), []) := by
      rw [readScalar, hread]
      rfl
    exact parse_of_readScalar (by decide) hscalar
  | false =>
    obtain ⟨b, bytes, hbytes, hdigit⟩ := h.exists_digit
    have hscalar : readScalar Value.builder b bytes = .ok (.number (.ofRank false rank), []) := by
      rw [readScalar_of_isDigit hdigit, ← hbytes, hread]
      rfl
    show Value.parse limit (utf8 cs) = _
    rw [hbytes]
    exact parse_of_readScalar (opensScalar_of_isDigit hdigit) hscalar

end

end JsonDoc.Json.Grammar
