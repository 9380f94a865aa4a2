import JsonDoc.Json.Reader
import JsonDoc.Proofs.Outcome
import Mathlib.Data.List.TakeWhile

/-!
# `JsonDoc.Proofs.Json.Nesting`: how deep a text is nested

`Json.nesting` counts the brackets of a text from its bytes alone. It passes over strings, in which
a byte behind a backslash ends nothing, and knows nothing of the readers.

What the readers of numbers and words take is `Bare`: it has neither quotes nor brackets, and leaves
the count as it is. So does what the reader of strings takes (`Scan.over_readString`).
-/

set_option autoImplicit false

namespace JsonDoc.Json

open Number

/-- Whether a place in a text is in a string, and whether it is behind a backslash there. -/
inductive Place where
  | outside
  | inside
  | escaped
  deriving DecidableEq, Repr

/-- What a scan over a text has counted. -/
structure Scan where
  place : Place
  /-- How many brackets are open. -/
  level : Nat
  /-- How many brackets were open at most. -/
  deepest : Nat
  deriving DecidableEq, Repr

/-- The scan after one more byte. -/
def Scan.step (scan : Scan) (c : UInt8) : Scan :=
  match scan.place with
  | .escaped => { scan with place := .inside }
  | .inside =>
    if c = 0x5C then { scan with place := .escaped }
    else if c = 0x22 then { scan with place := .outside }
    else scan
  | .outside =>
    if c = 0x22 then { scan with place := .inside }
    else if c = 0x5B ∨ c = 0x7B then
      { scan with level := scan.level + 1, deepest := max scan.deepest (scan.level + 1) }
    else if c = 0x5D ∨ c = 0x7D then { scan with level := scan.level - 1 }
    else scan

/-- The scan after some bytes. -/
def Scan.over (scan : Scan) (cs : List UInt8) : Scan := cs.foldl Scan.step scan

/-- How deep the arrays and objects of a text are nested. -/
def nesting (text : List UInt8) : Nat := (Scan.over ⟨.outside, 0, 0⟩ text).deepest

/-! ### Bytes that count for nothing -/

/-- Neither a quote nor a bracket. -/
def isBare (b : UInt8) : Bool := b ∉ [0x22, 0x5B, 0x5D, 0x7B, 0x7D]

/-- Up to the rest there are only bytes that count for nothing. -/
def Bare (cs rest : List UInt8) : Prop := ∃ used, cs = used ++ rest ∧ ∀ b ∈ used, isBare b = true

section
variable {cs mid rest : List UInt8} {b : UInt8}

/-- No byte at all is read. -/
theorem Bare.refl (cs : List UInt8) : Bare cs cs := ⟨[], rfl, nofun⟩

/-- Two such stretches in a row. -/
theorem Bare.trans (h : Bare cs mid) (h' : Bare mid rest) : Bare cs rest := by
  obtain ⟨used, rfl, hused⟩ := h
  obtain ⟨more, rfl, hmore⟩ := h'
  refine ⟨used ++ more, by rw [List.append_assoc], fun b mem => ?_⟩
  exact (List.mem_append.1 mem).elim (hused b) (hmore b)

/-- One more byte in front that counts for nothing. -/
theorem Bare.cons (hb : isBare b = true) (h : Bare cs rest) : Bare (b :: cs) rest := by
  obtain ⟨used, rfl, hused⟩ := h
  exact ⟨b :: used, rfl, List.forall_mem_cons.2 ⟨hb, hused⟩⟩

/-- A scan goes over such bytes without counting. -/
theorem Bare.over_eq (h : Bare cs rest) (level deepest : Nat) :
    Scan.over ⟨.outside, level, deepest⟩ cs = Scan.over ⟨.outside, level, deepest⟩ rest := by
  obtain ⟨used, rfl, hused⟩ := h
  induction used with
  | nil => rfl
  | cons b used ih =>
    obtain ⟨hb, hused⟩ := List.forall_mem_cons.1 hused
    have hstep : Scan.step ⟨.outside, level, deepest⟩ b = ⟨.outside, level, deepest⟩ := by
      simp only [isBare, List.mem_cons, List.not_mem_nil, or_false, not_or, decide_eq_true_eq] at hb
      obtain ⟨hquote, hopen, hclose, hopen', hclose'⟩ := hb
      simp [Scan.step, hquote, hopen, hclose, hopen', hclose']
    rw [Scan.over, List.cons_append, List.foldl_cons, hstep]
    exact ih hused

/-- Dropping bytes that count for nothing. -/
theorem bare_dropWhile {p : UInt8 → Bool} (hp : ∀ b, p b = true → isBare b = true)
    (cs : List UInt8) : Bare cs (cs.dropWhile p) :=
  ⟨cs.takeWhile p, List.takeWhile_append_dropWhile.symm, fun b mem =>
    hp b (List.mem_takeWhile_imp mem)⟩

/-- What holds of the bytes from 0 to 255 holds of all bytes. -/
theorem forall_byte {p : UInt8 → Prop} (h : ∀ n < 0x100, p (UInt8.ofNat n)) (b : UInt8) : p b := by
  have hb := h b.toNat b.toNat_lt
  rwa [UInt8.ofNat_toNat] at hb

/-- Digits are neither quotes nor brackets. -/
theorem isBare_of_isDigit : ∀ b, isDigit b = true → isBare b = true :=
  forall_byte (by decide +kernel)

/-- White space is neither quotes nor brackets. -/
theorem isBare_of_isSpace : ∀ b, isSpace b = true → isBare b = true :=
  forall_byte (by decide +kernel)

/-- White space is passed over. -/
theorem bare_skipSpace (h : skipSpace cs = rest) : Bare cs rest := by
  cases h
  exact bare_dropWhile isBare_of_isSpace cs

/-! ### Numbers and words -/

variable {negative : Bool} {significand taken : Nat} {exponent : Int} {n : Numeral}

/-- Digits that are taken in count for nothing. -/
theorem bare_takeDigits {bound value size : Nat}
    (h : takeDigits bound significand taken cs = (value, size, rest)) : Bare cs rest := by
  induction cs generalizing significand taken with
  | nil =>
    cases h
    exact .refl []
  | cons c cs ih =>
    rw [takeDigits] at h
    split at h
    · next hc => exact .cons (isBare_of_isDigit c (Bool.and_eq_true_iff.1 hc).1) (ih h)
    · cases h
      exact .refl _

/-- Digits that are dropped count for nothing. -/
theorem bare_skipDigits {size : Nat} (h : skipDigits cs = (size, rest)) : Bare cs rest := by
  cases h
  exact bare_dropWhile isBare_of_isDigit cs

/-- The sign of an exponent, if there is one. -/
theorem bare_sign {below : Bool}
    (h : (match cs with
      | 0x2B :: rest => (false, rest)
      | 0x2D :: rest => (true, rest)
      | cs => (false, cs)) = (below, rest)) : Bare cs rest := by
  split at h
  · cases h
    exact .cons (by decide) (.refl _)
  · cases h
    exact .cons (by decide) (.refl _)
  · cases h
    exact .refl _

/-- Rounding a numeral reads nothing more. -/
theorem eq_of_floatNumeral (h : floatNumeral negative significand exponent cs = .ok (n, rest)) :
    rest = cs := by
  rw [floatNumeral] at h
  split at h
  · exact (congrArg Prod.snd (Except.ok.inj h)).symm
  · cases h

/-- The exponent of a number, whether its digits saturate or not. -/
theorem bare_readExponent (h : readExponent negative significand exponent cs = .ok (n, rest)) :
    Bare cs rest := by
  revert h
  fun_cases readExponent negative significand exponent cs with
  | case1 | case2 | case3 => exact nofun
  | case4 _ c _ hc _ _ d more hd _ hsign htake =>
    intro h
    rw [eq_of_floatNumeral h]
    have hc : isDigit c = true := by simpa using hc
    have htaken : Bare (c :: _) (d :: more) :=
      .cons (isBare_of_isDigit c hc) (bare_takeDigits htake)
    have hskipped : Bare (d :: more) (skipDigits more).2 :=
      .cons (isBare_of_isDigit d hd) (bare_skipDigits rfl)
    exact (bare_sign hsign).trans (htaken.trans hskipped)
  | case5 _ c _ hc _ _ _ _ _ hsign htake | case6 _ c _ hc _ _ hsign htake =>
    intro h
    rw [eq_of_floatNumeral h]
    have hc : isDigit c = true := by simpa using hc
    exact (bare_sign hsign).trans (.cons (isBare_of_isDigit c hc) (bare_takeDigits htake))

/-- The digits of a significand that are too many for 64 bits, and what follows them. -/
theorem bare_readScale (h : readScale negative significand exponent cs = .ok (n, rest)) :
    Bare cs rest := by
  rw [readScale.eq_def] at h
  split at h
  · exact .cons (by decide) (bare_readExponent h)
  · exact .cons (by decide) (bare_readExponent h)
  · rw [eq_of_floatNumeral h]
    exact .refl cs

/-- The digits behind a point, and an exponent if there is one. -/
theorem bare_readFraction (h : readFraction negative significand exponent cs = .ok (n, rest)) :
    Bare cs rest := by
  revert h
  fun_cases readFraction negative significand exponent cs with
  | case1 | case2 => exact nofun
  | case3 _ _ _ htake _ _ hskip =>
    exact fun h => (bare_takeDigits htake).trans ((bare_skipDigits hskip).trans (bare_readScale h))

/-- A whole number without its sign. -/
theorem bare_readNumeral (h : readNumeral negative cs = .ok (n, rest)) : Bare cs rest := by
  rw [readNumeral.eq_def] at h
  split at h
  · cases h
  · next c cs =>
    split at h
    · cases h
    · split at h
      · cases h
      · -- All bytes taken up to here are digits; then a fraction, an exponent or the end.
        rcases htake : takeDigits (2 ^ 64) 0 0 (c :: cs) with ⟨significand, taken, afterTaken⟩
        rcases hskip : skipDigits afterTaken with ⟨dropped, afterDigits⟩
        have hdigits : Bare (c :: cs) afterDigits :=
          (bare_takeDigits htake).trans (bare_skipDigits hskip)
        simp only [htake, hskip] at h
        refine hdigits.trans ?_
        split at h
        · exact .cons (by decide) (bare_readFraction h)
        · exact .cons (by decide) (bare_readExponent h)
        · exact .cons (by decide) (bare_readExponent h)
        · split at h
          · cases h
            exact .refl _
          · rw [eq_of_floatNumeral h]
            exact .refl _

/-- One of the three words. -/
theorem bare_readWord {word : List UInt8} (hword : word.all isBare = true)
    (h : readWord word cs = .ok rest) : Bare cs rest := by
  fun_induction readWord word cs with
  | case1 =>
    cases h
    exact .refl _
  | case2 => cases h
  | case3 w word cs ih =>
    obtain ⟨hw, hword⟩ := Bool.and_eq_true_iff.1 hword
    exact .cons hw (ih hword h)
  | case4 => cases h

/-! ### Strings -/

variable {level deepest : Nat} {content bytes : List UInt8}

/-- A byte behind a backslash ends no string. -/
theorem Scan.over_escape (c : UInt8) (cs : List UInt8) :
    Scan.over ⟨.inside, level, deepest⟩ (0x5C :: c :: cs)
      = Scan.over ⟨.inside, level, deepest⟩ cs := rfl

/-- Inside a string every byte but a quote and a backslash is passed over. -/
theorem Scan.over_inside (hquote : b ≠ 0x22) (hback : b ≠ 0x5C) (cs : List UInt8) :
    Scan.over ⟨.inside, level, deepest⟩ (b :: cs) = Scan.over ⟨.inside, level, deepest⟩ cs := by
  rw [Scan.over, List.foldl_cons, Scan.step]
  simp only [if_neg hquote, if_neg hback]
  rfl

/-- Hexadecimal digits are neither quotes nor backslashes. -/
theorem ne_of_hexDigit? {k : Nat} (h : hexDigit? b = some k) : b ≠ 0x22 ∧ b ≠ 0x5C := by
  have hquote : hexDigit? 0x22 = none := by decide
  have hback : hexDigit? 0x5C = none := by decide
  constructor
  · rintro rfl
    rw [hquote] at h
    cases h
  · rintro rfl
    rw [hback] at h
    cases h

/-- The digits of a code are none of these. -/
theorem Scan.over_hexFour {x y z w : UInt8} {k : Nat} (h : hexFour? x y z w = some k)
    (cs : List UInt8) :
    Scan.over ⟨.inside, level, deepest⟩ (x :: y :: z :: w :: cs)
      = Scan.over ⟨.inside, level, deepest⟩ cs := by
  simp only [hexFour?, Option.pure_def, Option.bind_eq_bind, Option.bind_eq_some_iff] at h
  obtain ⟨_, hx, _, hy, _, hz, _, hw, -⟩ := h
  rw [Scan.over_inside (ne_of_hexDigit? hx).1 (ne_of_hexDigit? hx).2,
    Scan.over_inside (ne_of_hexDigit? hy).1 (ne_of_hexDigit? hy).2,
    Scan.over_inside (ne_of_hexDigit? hz).1 (ne_of_hexDigit? hz).2,
    Scan.over_inside (ne_of_hexDigit? hw).1 (ne_of_hexDigit? hw).2]

/-- A scan over the rest of a string leaves it at the same place as the reader does, and counts
nothing. -/
theorem Scan.over_readContent (h : readContent content cs = .ok (bytes, rest)) :
    Scan.over ⟨.inside, level, deepest⟩ cs = Scan.over ⟨.outside, level, deepest⟩ rest := by
  fun_induction readContent content cs with
  | case2 =>
    cases h
    rfl
  | case7 _ _ _ _ _ _ hlead _ _ _ _ _ _ _ _ htrail _ ih =>
    rw [Scan.over_escape, Scan.over_hexFour hlead, Scan.over_escape, Scan.over_hexFour htrail]
    exact ih h
  | case14 _ _ _ _ _ _ _ hunit _ _ ih =>
    rw [Scan.over_escape, Scan.over_hexFour hunit]
    exact ih h
  | case16 _ _ _ _ _ _ _ ih =>
    rw [Scan.over_escape]
    exact ih h
  | case19 _ _ _ hquote hback _ ih =>
    rw [Scan.over_inside hquote hback]
    exact ih h
  | _ => cases h

/-- A string opens and closes nothing, whatever it contains. -/
theorem Scan.over_readString {s : String} (h : readString cs = .ok (s, rest)) :
    Scan.over ⟨.inside, level, deepest⟩ cs = Scan.over ⟨.outside, level, deepest⟩ rest := by
  simp only [readString, bind_eq_ok_iff, Prod.exists] at h
  obtain ⟨bytes, afterContent, hcontent, h⟩ := h
  split at h
  · cases h
    exact over_readContent hcontent
  · cases h
end

end JsonDoc.Json
