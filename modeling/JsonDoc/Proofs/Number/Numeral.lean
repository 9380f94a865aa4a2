import JsonDoc.Number.Decimal
import Mathlib.Data.List.TakeDrop

/-!
# `JsonDoc.Proofs.Number.Numeral`: the texts that are decimal numerals

`NumeralText` is the grammar of decimal numerals: a sign, digits with a point before, among or
after them, and an exponent. `Decimal.read?` takes exactly such a text from the front of what it
is given:

* `Decimal.read?_append`: a numeral is read whole from the front of a text that does not go on
  with a digit, a point or the mark of an exponent.
* `Decimal.exists_numeralText_of_read?`: what is read is a numeral, and it was the front of the
  text.

`Text.Stops` says that a text does not go on with a character of some class; with it a run of
characters of the class is cut off at its end and nowhere else (`Text.span_append`).
-/

set_option autoImplicit false

namespace JsonDoc

namespace Text

/-- The text does not go on with a character of the class `p`. -/
def Stops (p : Char → Bool) (rest : List Char) : Prop := ∀ c, rest.head? = some c → p c = false

/-- At its end a text goes on with no class. -/
@[simp] theorem stops_nil (p : Char → Bool) : Stops p [] := by
  intro c h
  simp at h

/-- A text that is not at its end is decided by its first character. -/
@[simp] theorem stops_cons {p : Char → Bool} {c : Char} {rest : List Char} :
    Stops p (c :: rest) ↔ p c = false := by
  simp [Stops]

/-- A text that stops short of a class stops short of every class inside it. -/
theorem Stops.mono {p q : Char → Bool} {rest : List Char} (h : Stops q rest)
    (le : ∀ c, p c = true → q c = true) : Stops p rest := by
  intro c hc
  cases hp : p c with
  | false => rfl
  | true => exact absurd (h c hc) (by simp [le c hp])

/-- A run of characters of a class is cut off where it ends. -/
theorem span_append {p : Char → Bool} {cs rest : List Char} (all : ∀ c ∈ cs, p c = true)
    (stops : Stops p rest) : (cs ++ rest).span p = (cs, rest) := by
  rw [List.span_eq_takeWhile_dropWhile, List.takeWhile_append_of_pos all,
    List.dropWhile_append_of_pos all]
  cases rest with
  | nil => simp
  | cons c rest => simp [stops_cons.1 stops]

/-- What is cut off is a run of the class, and the rest does not go on with it. -/
theorem of_span {p : Char → Bool} {cs run rest : List Char} (h : cs.span p = (run, rest)) :
    cs = run ++ rest ∧ (∀ c ∈ run, p c = true) ∧ Stops p rest := by
  rw [List.span_eq_takeWhile_dropWhile, Prod.mk.injEq] at h
  obtain ⟨rfl, rfl⟩ := h
  refine ⟨List.takeWhile_append_dropWhile.symm, ?_, ?_⟩
  · exact fun c hc => List.all_eq_true.1 List.all_takeWhile c hc
  · intro c hc
    have := List.head?_dropWhile_not p cs
    rw [hc] at this
    simpa using this

end Text

namespace Number

open Text

/-- Decimal digits, or nothing. -/
def AllDigits (cs : List Char) : Prop := ∀ c ∈ cs, c.isDigit = true

/-- One decimal digit or more. -/
def Digits (cs : List Char) : Prop := cs ≠ [] ∧ AllDigits cs

/-- An optional sign, and whether it is a minus. -/
inductive SignText : Bool → List Char → Prop where
  | absent : SignText false []
  | plus : SignText false ['+']
  | minus : SignText true ['-']

/-- Digits with an optional point before, among or after them: their number without the point,
and the power of ten that the point stands for. -/
inductive MantissaText : List Char → Nat → Int → Prop where
  | whole {ds : List Char} : Digits ds → MantissaText ds (natOfDigits ds) 0
  | pointed {ds fs : List Char} : AllDigits ds → AllDigits fs → ds ≠ [] ∨ fs ≠ [] →
      MantissaText (ds ++ '.' :: fs) (natOfDigits (ds ++ fs)) (-(fs.length : Int))

/-- An optional exponent. -/
inductive ExponentText : List Char → Int → Prop where
  | absent : ExponentText [] 0
  | marked {mark : Char} {negative : Bool} {sign ds : List Char} : mark = 'e' ∨ mark = 'E' →
      SignText negative sign → Digits ds →
      ExponentText (mark :: (sign ++ ds))
        (if negative then -(natOfDigits ds : Int) else natOfDigits ds)

/-- A decimal numeral. -/
inductive NumeralText : List Char → Decimal → Prop where
  | intro {negative : Bool} {sign mantissa mark : List Char} {digits : Nat} {below exponent : Int} :
      SignText negative sign → MantissaText mantissa digits below → ExponentText mark exponent →
      NumeralText (sign ++ mantissa ++ mark) ⟨negative, digits, below + exponent⟩

/-- A character with which a numeral could go on. -/
def continuesNumeral (c : Char) : Bool := c.isDigit || c == '.' || c == 'e' || c == 'E'

/-- A character of a sign. -/
def isSign (c : Char) : Bool := c == '-' || c == '+'

/-- A digit is no sign. -/
theorem isSign_eq_false_of_isDigit {c : Char} (h : c.isDigit = true) : isSign c = false := by
  by_contra hs
  rw [Bool.not_eq_false, isSign, Bool.or_eq_true, beq_iff_eq, beq_iff_eq] at hs
  rcases hs with rfl | rfl <;> exact absurd h (by decide)

/-! ### Signs -/

/-- Digits cannot be taken for a sign. -/
theorem Digits.stops_isSign {ds rest : List Char} (h : Digits ds) : Stops isSign (ds ++ rest) := by
  obtain ⟨hne, hall⟩ := h
  cases ds with
  | nil => exact absurd rfl hne
  | cons c ds => simpa using isSign_eq_false_of_isDigit (hall c List.mem_cons_self)

/-- A sign is read off a text that does not go on with another one. -/
theorem readSign_append {negative : Bool} {sign rest : List Char} (h : SignText negative sign)
    (stops : Stops isSign rest) : readSign (sign ++ rest) = (negative, rest) := by
  cases h with
  | plus => rfl
  | minus => rfl
  | absent =>
    cases rest with
    | nil => rfl
    | cons c rest =>
      have hc := stops_cons.1 stops
      rw [List.nil_append, readSign.eq_def]
      split
      · next heq => cases heq; exact absurd hc (by decide)
      · next heq => cases heq; exact absurd hc (by decide)
      · rfl

/-- Whatever is taken off a text as a sign is one, or nothing. -/
theorem exists_signText_of_readSign {cs rest : List Char} {negative : Bool}
    (h : readSign cs = (negative, rest)) : ∃ sign, cs = sign ++ rest ∧ SignText negative sign := by
  rw [readSign.eq_def] at h
  split at h <;> cases h
  · exact ⟨['-'], rfl, .minus⟩
  · exact ⟨['+'], rfl, .plus⟩
  · exact ⟨[], rfl, .absent⟩

/-! ### Mantissas and exponents -/

/-- A mantissa starts with a digit or a point, so it cannot be taken for a sign. -/
theorem MantissaText.stops_isSign {mantissa rest : List Char} {digits : Nat} {below : Int}
    (h : MantissaText mantissa digits below) : Stops isSign (mantissa ++ rest) := by
  cases h with
  | whole hds => exact hds.stops_isSign
  | @pointed ds fs hds _ _ =>
    cases ds with
    | nil => simp [isSign]
    | cons c ds => simpa using isSign_eq_false_of_isDigit (hds c List.mem_cons_self)

/-- A mantissa is read off a text that goes on with neither a digit nor a point. -/
theorem readMantissa?_append {mantissa rest : List Char} {digits : Nat} {below : Int}
    (h : MantissaText mantissa digits below) (digitless : Stops Char.isDigit rest)
    (pointless : Stops (· == '.') rest) :
    Decimal.readMantissa? (mantissa ++ rest) = some (digits, below, rest) := by
  cases h with
  | whole hds =>
    rw [Decimal.readMantissa?, span_append hds.2 digitless]
    have hne : mantissa.isEmpty = false := by simpa using hds.1
    dsimp only
    split
    · exact absurd (stops_cons.1 pointless) (by decide)
    · simp [hne]
  | @pointed ds fs hds hfs hne =>
    -- The digits before the point end at the point, and those after it at the end.
    have hrun : (ds ++ '.' :: fs ++ rest).span Char.isDigit = (ds, '.' :: (fs ++ rest)) := by
      rw [List.append_assoc, List.cons_append]
      exact span_append hds (by simp)
    have hempty : (ds.isEmpty && fs.isEmpty) = false := by
      rcases hne with h | h <;> simp [h]
    rw [Decimal.readMantissa?, hrun]
    simp only [span_append hfs digitless, hempty, Bool.false_eq_true, if_false]

/-- What is read as a mantissa is the text of one. -/
theorem exists_mantissaText_of_readMantissa? {cs rest : List Char} {digits : Nat} {below : Int}
    (h : Decimal.readMantissa? cs = some (digits, below, rest)) :
    ∃ mantissa, cs = mantissa ++ rest ∧ MantissaText mantissa digits below := by
  rw [Decimal.readMantissa?] at h
  cases hrun : cs.span Char.isDigit with
  | mk whole after =>
    -- Digits, then perhaps a point with more of them; the reader refuses a point alone.
    obtain ⟨rfl, hwhole, -⟩ := of_span hrun
    rw [hrun] at h
    dsimp only at h
    split at h
    · next after =>
      cases hfrac : after.span Char.isDigit with
      | mk fraction after' =>
        obtain ⟨rfl, hfraction, -⟩ := of_span hfrac
        rw [hfrac] at h
        dsimp only at h
        split at h
        · exact absurd h (by simp)
        · next hne =>
          simp only [Option.some.injEq, Prod.mk.injEq] at h
          obtain ⟨rfl, rfl, rfl⟩ := h
          refine ⟨whole ++ '.' :: fraction, by simp, .pointed hwhole hfraction ?_⟩
          simpa [Classical.or_iff_not_imp_left] using hne
    · split at h
      · exact absurd h (by simp)
      · next hne =>
        simp only [Option.some.injEq, Prod.mk.injEq] at h
        obtain ⟨rfl, rfl, rfl⟩ := h
        exact ⟨whole, rfl, .whole ⟨by simpa using hne, hwhole⟩⟩

/-- An exponent, or none, is read off a text that does not continue the numeral. -/
theorem readExponent?_append {mark rest : List Char} {exponent : Int}
    (h : ExponentText mark exponent) (stops : Stops continuesNumeral rest) :
    Decimal.readExponent? (mark ++ rest) = some (exponent, rest) := by
  have digitless : Stops Char.isDigit rest :=
    stops.mono fun c hc => by simp [continuesNumeral, hc]
  cases h with
  | absent =>
    -- What follows is no mark, so the reader takes the exponent to be absent as well.
    cases rest with
    | nil => rfl
    | cons c rest =>
      have hc := stops_cons.1 stops
      rw [List.nil_append, Decimal.readExponent?, if_neg]
      rintro (rfl | rfl) <;> exact absurd hc (by decide)
  | @marked mark negative sign ds hmark hsign hds =>
    have hstart : Stops isSign (ds ++ rest) := hds.stops_isSign
    have hne : ds.isEmpty = false := by simpa using hds.1
    rw [List.cons_append, List.append_assoc, Decimal.readExponent?, if_pos hmark,
      readSign_append hsign hstart]
    dsimp only
    rw [span_append hds.2 digitless]
    simp [hne]

/-- What is read as an exponent is the text of one, or nothing. -/
theorem exists_exponentText_of_readExponent? {cs rest : List Char} {exponent : Int}
    (h : Decimal.readExponent? cs = some (exponent, rest)) :
    ∃ mark, cs = mark ++ rest ∧ ExponentText mark exponent := by
  cases cs with
  | nil =>
    simp only [Decimal.readExponent?, Option.some.injEq, Prod.mk.injEq] at h
    obtain ⟨rfl, rfl⟩ := h
    exact ⟨[], rfl, .absent⟩
  | cons c cs =>
    rw [Decimal.readExponent?] at h
    split at h
    · next hmark =>
      cases hsign : readSign cs with
      | mk negative after =>
        obtain ⟨sign, rfl, hsignText⟩ := exists_signText_of_readSign hsign
        cases hrun : after.span Char.isDigit with
        | mk ds after' =>
          obtain ⟨rfl, hds, -⟩ := of_span hrun
          rw [hsign] at h
          dsimp only at h
          rw [hrun] at h
          dsimp only at h
          split at h
          · -- A mark without digits is no exponent, and the whole numeral is refused.
            exact absurd h (by simp)
          · next hne =>
            simp only [Option.some.injEq, Prod.mk.injEq] at h
            obtain ⟨rfl, rfl⟩ := h
            exact ⟨c :: (sign ++ ds), by simp, .marked hmark hsignText ⟨by simpa using hne, hds⟩⟩
    · simp only [Option.some.injEq, Prod.mk.injEq] at h
      obtain ⟨rfl, rfl⟩ := h
      exact ⟨[], rfl, .absent⟩

/-! ### Numerals -/

/-- The mark of an exponent ends the digits of a mantissa. -/
theorem ExponentText.stops_append {mark rest : List Char} {exponent : Int}
    (h : ExponentText mark exponent) (stops : Stops continuesNumeral rest) :
    Stops Char.isDigit (mark ++ rest) ∧ Stops (· == '.') (mark ++ rest) := by
  cases h with
  | absent =>
    exact ⟨stops.mono fun c hc => by simp [continuesNumeral, hc],
      stops.mono fun c hc => by simp_all [continuesNumeral]⟩
  | marked hmark =>
    rcases hmark with rfl | rfl <;> simp

/-- The characters of a numeral are those of signs and those with which a numeral could go on. -/
theorem NumeralText.numeralChar {cs : List Char} {d : Decimal} (h : NumeralText cs d) {c : Char}
    (hc : c ∈ cs) : continuesNumeral c = true ∨ isSign c = true := by
  have hsignChar {negative : Bool} {sign : List Char} (hsign : SignText negative sign)
      (hc : c ∈ sign) : isSign c = true := by
    cases hsign with
    | absent => cases hc
    | plus | minus =>
      rw [List.mem_singleton.1 hc]
      rfl
  have hdigit (hc : c.isDigit = true) : continuesNumeral c = true := by
    rw [continuesNumeral, hc]
    rfl
  -- The character is one of the sign, of the mantissa or of the exponent.
  obtain ⟨hsign, hmantissa, hmark⟩ := h
  rcases List.mem_append.1 hc with hc | hc
  · rcases List.mem_append.1 hc with hc | hc
    · exact .inr (hsignChar hsign hc)
    · cases hmantissa with
      | whole hds => exact .inl (hdigit (hds.2 c hc))
      | pointed hds hfs =>
        rcases List.mem_append.1 hc with hc | hc
        · exact .inl (hdigit (hds c hc))
        · rcases List.mem_cons.1 hc with rfl | hc
          · exact .inl rfl
          · exact .inl (hdigit (hfs c hc))
  · cases hmark with
    | absent => cases hc
    | marked hmark hsign hds =>
      rcases List.mem_cons.1 hc with rfl | hc
      · rcases hmark with rfl | rfl <;> exact .inl rfl
      · rcases List.mem_append.1 hc with hc | hc
        · exact .inr (hsignChar hsign hc)
        · exact .inl (hdigit (hds.2 c hc))

/-- A numeral is read off a text that does not continue it. -/
theorem Decimal.read?_append {cs rest : List Char} {d : Decimal} (h : NumeralText cs d)
    (stops : Stops continuesNumeral rest) : Decimal.read? (cs ++ rest) = some (d, rest) := by
  obtain ⟨hsign, hmantissa, hmark⟩ := h
  obtain ⟨digitless, pointless⟩ := hmark.stops_append stops
  rw [Decimal.read?, List.append_assoc, List.append_assoc,
    readSign_append hsign hmantissa.stops_isSign]
  simp only [readMantissa?_append hmantissa digitless pointless, readExponent?_append hmark stops,
    Option.bind_eq_bind, Option.bind_some, Option.pure_def]

/-- What is read as a number is a numeral at the front of the text. -/
theorem Decimal.exists_numeralText_of_read? {cs rest : List Char} {d : Decimal}
    (h : Decimal.read? cs = some (d, rest)) : ∃ pre, cs = pre ++ rest ∧ NumeralText pre d := by
  rw [Decimal.read?] at h
  cases hsign : readSign cs with
  | mk negative after =>
    rw [hsign] at h
    simp only [Option.bind_eq_bind, Option.bind_eq_some_iff, Option.pure_def, Option.some.injEq,
      Prod.mk.injEq] at h
    obtain ⟨⟨digits, below, after'⟩, hmantissa, ⟨exponent, after''⟩, hmark, rfl, rfl⟩ := h
    obtain ⟨sign, rfl, hsignText⟩ := exists_signText_of_readSign hsign
    obtain ⟨mantissa, rfl, hmantissaText⟩ := exists_mantissaText_of_readMantissa? hmantissa
    obtain ⟨mark, rfl, hmarkText⟩ := exists_exponentText_of_readExponent? hmark
    exact ⟨sign ++ mantissa ++ mark, by simp, .intro hsignText hmantissaText hmarkText⟩

end Number

end JsonDoc
