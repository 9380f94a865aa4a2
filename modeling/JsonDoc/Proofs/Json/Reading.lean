import JsonDoc.Proofs.Json.Grammar
import JsonDoc.Proofs.Outcome

/-!
# `JsonDoc.Proofs.Json.Reading`: what the grammar derives is read

Each reader, given the bytes of a text of its kind and a rest that cannot belong to it, gives what
the text stands for and that rest. Outside strings all characters are single bytes; inside them the
bytes of a character are taken as they stand, and all bytes together are decoded at the closing
quote.

`reads_readValue` puts the readers together, by induction on the nesting: the depth that
the grammar gives is what the reader needs of its budgets. `Value.parse_of_valueText` is the same
for a whole text.
-/

set_option autoImplicit false

namespace JsonDoc

/-- Pairs with new keys are put in at the end, one behind the other. -/
theorem Members.putAll_eq_append {α : Type} {members pairs : Members α}
    (nodup : (keys (members ++ pairs)).Nodup) : putAll members pairs = members ++ pairs := by
  induction pairs generalizing members with
  | nil => exact (List.append_nil members).symm
  | cons pair pairs ih =>
    have absent : pair.1 ∉ keys members := by
      rw [keys, List.map_append, List.map_cons, List.nodup_append] at nodup
      exact fun mem => nodup.2.2 _ mem _ List.mem_cons_self rfl
    have hput : put members pair.1 pair.2 = members ++ [pair] := by
      rw [put, if_neg fun present => absent (has_iff_mem_keys.1 present)]
    rw [List.append_cons] at nodup ⊢
    rw [← ih nodup, ← hput]
    rfl

/-- Pairs with different keys are the members of an object as they stand. -/
theorem Members.ofPairs_eq_self {α : Type} {pairs : Members α} (nodup : (keys pairs).Nodup) :
    ofPairs pairs = pairs := putAll_eq_append nodup

/-- The bytes of characters. -/
def utf8 (cs : List Char) : List UInt8 := cs.flatMap String.utf8EncodeChar

/-- The empty text has no bytes. -/
@[simp] theorem utf8_nil : utf8 [] = [] := rfl

/-- The bytes of the first character stand in front of those of the others. -/
@[simp] theorem utf8_cons (c : Char) (cs : List Char) :
    utf8 (c :: cs) = String.utf8EncodeChar c ++ utf8 cs := rfl

/-- Texts one behind the other have their bytes one behind the other. -/
@[simp] theorem utf8_append (cs ds : List Char) : utf8 (cs ++ ds) = utf8 cs ++ utf8 ds :=
  List.flatMap_append

/-- Every character has a byte or more, so that a bound in characters is one in bytes. -/
theorem length_le_length_utf8 (cs : List Char) : cs.length ≤ (utf8 cs).length := by
  induction cs with
  | nil => exact Nat.le_refl 0
  | cons c cs ih =>
    have hpos := List.length_pos_iff.2 (String.utf8EncodeChar_ne_nil (c := c))
    rw [utf8_cons, List.length_append, List.length_cons]
    omega

/-- The bytes of a string are those of its characters. -/
theorem bytesOf_ofList (cs : List Char) : bytesOf (String.ofList cs) = utf8 cs := by
  rw [bytesOf, String.toUTF8, String.toByteArray_ofList, List.utf8Encode,
    List.toList_data_toByteArray]
  rfl

/-- The bytes of characters are decoded to these characters. -/
theorem fromUTF8?_utf8 (cs : List Char) :
    String.fromUTF8? ⟨(utf8 cs).toArray⟩ = some (String.ofList cs) := by
  have hbytes : (⟨(utf8 cs).toArray⟩ : ByteArray) = cs.utf8Encode :=
    ByteArray.ext (List.data_toByteArray (l := utf8 cs)).symm
  rw [hbytes, String.fromUTF8?, dif_pos ByteArray.isValidUTF8_utf8Encode]
  rfl

/-- A character below 128 is one byte, its code point. -/
theorem utf8EncodeChar_of_lt {c : Char} (h : c.toNat < 0x80) :
    String.utf8EncodeChar c = [UInt8.ofNat c.toNat] := by
  rw [String.utf8EncodeChar]
  exact if_pos (Nat.le_of_lt_succ h)

/-- The bytes of other characters are not below 128. -/
theorem le_of_mem_utf8EncodeChar {c : Char} (h : 0x80 ≤ c.toNat) {b : UInt8}
    (mem : b ∈ String.utf8EncodeChar c) : 0x80 ≤ b := by
  -- Each byte is some bits of the code point and a mark of at least 128.
  have hbyte {n mark : Nat} (hle : 0x80 ≤ mark) (hlt : n + mark < 0x100) :
      0x80 ≤ UInt8.ofNat (n + mark) := by
    rw [UInt8.le_iff_toNat_le, UInt8.toNat_ofNat_of_lt' hlt]
    exact Nat.le_trans hle (Nat.le_add_left mark n)
  have hnot : ¬c.val.toNat ≤ 0x7f := Nat.not_le.2 h
  rw [String.utf8EncodeChar, if_neg hnot] at mem
  split at mem
  all_goals try split at mem
  all_goals
    simp only [List.mem_cons, List.not_mem_nil, or_false] at mem
    rcases mem with rfl | rfl | rfl | rfl
  all_goals exact hbyte (by decide) (by omega)

namespace Json.Grammar

open Number
open Path.Grammar (CodeText)

/-! ### White space -/

/-- White space, commas and closing brackets. -/
def separators : List UInt8 := [0x20, 0x0A, 0x0D, 0x09, 0x2C, 0x5D, 0x7D]

/-- A character of white space is one byte. -/
theorem Spaces.exists_byte {cs : List Char} (h : Spaces cs) {c : Char} (mem : c ∈ cs) :
    ∃ b, String.utf8EncodeChar c = [b] ∧ isSpace b = true ∧ b ∈ separators := by
  obtain rfl | rfl | rfl | rfl := h c mem
  all_goals exact ⟨_, rfl, by decide, by decide⟩

/-- The bytes of white space are white space to the reader. -/
theorem isSpace_of_mem_utf8 {cs : List Char} (h : Spaces cs) {b : UInt8} (mem : b ∈ utf8 cs) :
    isSpace b = true := by
  obtain ⟨c, hc, hb⟩ := List.mem_flatMap.1 mem
  obtain ⟨byte, hbyte, hspace, -⟩ := h.exists_byte hc
  rw [hbyte, List.mem_singleton] at hb
  rwa [hb]

/-- White space in front is passed over. -/
@[simp] theorem skipSpace_append {cs : List Char} (h : Spaces cs) (rest : List UInt8) :
    skipSpace (utf8 cs ++ rest) = skipSpace rest :=
  List.dropWhile_append_of_pos fun _ mem => isSpace_of_mem_utf8 h mem

/-- The first byte is none of white space. -/
theorem skipSpace_cons {b : UInt8} (h : isSpace b = false) (rest : List UInt8) :
    skipSpace (b :: rest) = b :: rest := by
  rw [skipSpace, List.dropWhile_cons_of_neg (by simp [h])]

/-! ### Strings -/

/-- A byte that stands for itself in a string. -/
def isPlain (b : UInt8) : Bool := 0x20 ≤ b && b != 0x22 && b != 0x5C

/-- Plain bytes are taken in one after the other, the last one first. -/
theorem readContent_of_plain {bytes : List UInt8} (h : ∀ b ∈ bytes, isPlain b = true)
    (content rest : List UInt8) :
    readContent content (bytes ++ rest) = readContent (bytes.reverse ++ content) rest := by
  induction bytes generalizing content with
  | nil => rfl
  | cons b bytes ih =>
    obtain ⟨hb, hbytes⟩ := List.forall_mem_cons.1 h
    simp only [isPlain, Bool.and_eq_true, decide_eq_true_eq, bne_iff_ne, ne_eq] at hb
    obtain ⟨⟨hspace, hquote⟩, hback⟩ := hb
    -- A plain byte is neither quote nor backslash nor control byte: the reader's last case.
    have hstep : readContent content (b :: (bytes ++ rest))
        = readContent (b :: content) (bytes ++ rest) := by
      rw [readContent.eq_def]
      split
      · contradiction
      · next heq => exact absurd (List.cons.inj heq).1 hquote
      · next heq => exact absurd (List.cons.inj heq).1 hback
      · next heq =>
        cases heq
        rw [if_neg (UInt8.not_lt.2 hspace)]
    rw [List.cons_append, hstep, ih hbytes, List.reverse_cons, List.append_assoc]
    rfl

/-- A hexadecimal digit is one byte with the same value. -/
theorem exists_byte_of_hexDigit? {c : Char} {k : Nat} (h : Path.hexDigit? c = some k) :
    ∃ b, String.utf8EncodeChar c = [b] ∧ hexDigit? b = some k := by
  have hlt : c.toNat < 0x80 := by
    rw [Path.hexDigit?] at h
    split at h
    · next hrange => exact Nat.lt_of_le_of_lt (m := '9'.toNat) hrange.2 (by decide)
    · split at h
      · next hrange => exact Nat.lt_of_le_of_lt (m := 'f'.toNat) hrange.2 (by decide)
      · split at h
        · next hrange => exact Nat.lt_of_le_of_lt (m := 'F'.toNat) hrange.2 (by decide)
        · cases h
  have hsame : ∀ n < 0x80, Path.hexDigit? (Char.ofNat n) = hexDigit? (UInt8.ofNat n) := by
    decide +kernel
  have heq := hsame c.toNat hlt
  rw [Char.ofNat_toNat, h] at heq
  exact ⟨_, utf8EncodeChar_of_lt hlt, heq.symm⟩

/-- The bytes of a character that may stand for itself are plain. A character of several bytes has
none below 0x80 among them. -/
theorem isPlain_of_mem_utf8EncodeChar {c : Char} (hspace : 0x20 ≤ c.toNat) (hquote : c ≠ '"')
    (hback : c ≠ '\\') {b : UInt8} (mem : b ∈ String.utf8EncodeChar c) : isPlain b = true := by
  by_cases hlt : c.toNat < 0x80
  · have hplain : ∀ n < 0x80, 0x20 ≤ n → Char.ofNat n ≠ '"' → Char.ofNat n ≠ '\\' →
        isPlain (UInt8.ofNat n) = true := by decide +kernel
    have hc := hplain c.toNat hlt hspace
    rw [Char.ofNat_toNat] at hc
    rw [utf8EncodeChar_of_lt hlt, List.mem_singleton] at mem
    rw [mem]
    exact hc hquote hback
  · have hle := le_of_mem_utf8EncodeChar (Nat.not_lt.1 hlt) mem
    have hplain : ∀ n < 0x100, 0x80 ≤ UInt8.ofNat n → isPlain (UInt8.ofNat n) = true := by
      decide +kernel
    have hb := hplain b.toNat b.toNat_lt
    rw [UInt8.ofNat_toNat] at hb
    exact hb hle

/-- The code of a character is not one of the surrogates. -/
theorem not_surrogate (c : Char) : isTrail c.toNat = false ∧ isLead c.toNat = false := by
  have hvalid : c.toNat < 0xD800 ∨ 0xDFFF < c.toNat ∧ c.toNat < 0x110000 := c.valid
  rw [isTrail, isLead, Bool.and_eq_false_iff, Bool.and_eq_false_iff]
  simp only [decide_eq_false_iff_not]
  omega

/-- A short escape is read as the byte it stands for. -/
theorem readContent_escape {c byte : UInt8} (h : escaped? c = some byte)
    (content rest : List UInt8) :
    readContent content (0x5C :: c :: rest) = readContent (byte :: content) rest := by
  have hne : c ≠ 0x75 := by
    rintro rfl
    cases h
  rw [readContent, h]
  · exact fun _ _ _ _ _ hc => absurd hc hne
  · exact hne

/-- However a character is written, the reader takes in its bytes. -/
theorem CharText.readContent_append {cs : List Char} {c : Char} (h : CharText cs c)
    (content rest : List UInt8) :
    readContent content (utf8 cs ++ rest)
      = readContent ((String.utf8EncodeChar c).reverse ++ content) rest := by
  cases h with
  | plain hspace hquote hback =>
    rw [utf8_cons, utf8_nil, List.append_nil]
    exact readContent_of_plain (fun _ => isPlain_of_mem_utf8EncodeChar hspace hquote hback)
      content rest
  | escape hescape =>
    -- Eight escapes, checked one by one.
    have hall : ∀ pair ∈ escapes, String.utf8EncodeChar pair.1 = [UInt8.ofNat pair.1.toNat] ∧
        String.utf8EncodeChar pair.2 = [UInt8.ofNat pair.2.toNat] ∧
        escaped? (UInt8.ofNat pair.1.toNat) = some (UInt8.ofNat pair.2.toNat) :=
      List.all_iff_forall_prop.1 (by decide)
    obtain ⟨hletter, hchar, hbyte⟩ := hall _ hescape
    rw [utf8_cons, utf8_cons, utf8_nil, hletter, hchar]
    exact readContent_escape hbyte content rest
  | code hcode =>
    obtain ⟨i, j, k, l, ha, hb, hd, he, hvalue⟩ := hcode
    obtain ⟨a', ha', ha⟩ := exists_byte_of_hexDigit? ha
    obtain ⟨b', hb', hb⟩ := exists_byte_of_hexDigit? hb
    obtain ⟨d', hd', hd⟩ := exists_byte_of_hexDigit? hd
    obtain ⟨e', he', he⟩ := exists_byte_of_hexDigit? he
    have hfour : hexFour? a' b' d' e' = some c.toNat := by
      simp only [hexFour?, ha, hb, hd, he, hvalue]
      rfl
    -- A character is no surrogate, so that the reader looks for no second code behind it.
    obtain ⟨htrail, hlead⟩ := not_surrogate c
    simp only [utf8_cons, utf8_nil, ha', hb', hd', he']
    show readContent content (0x5C :: 0x75 :: a' :: b' :: d' :: e' :: rest) = _
    rw [readContent]
    simp only [hfour, htrail, hlead, reversedBytes, Char.ofNat_toNat]
    rfl

/-- Up to the closing quote the reader takes in the bytes of all characters. Induction on the text,
with the bytes so far generalized. -/
theorem ContentText.readContent_append {cs s : List Char} (h : ContentText cs s)
    (content rest : List UInt8) :
    readContent content (utf8 cs ++ 0x22 :: rest) = .ok (content.reverse ++ utf8 s, rest) := by
  induction h generalizing content with
  | nil => rw [utf8_nil, List.nil_append, readContent, List.append_nil]
  | cons hc _ ih =>
    rw [utf8_append, List.append_assoc, hc.readContent_append, ih, List.reverse_append,
      List.reverse_reverse, List.append_assoc]
    rfl

/-- A string is read from what stands behind its first quote. -/
theorem StringText.exists_readString {cs : List Char} {s : String} (h : StringText cs s) :
    ∃ bytes, utf8 cs = 0x22 :: bytes ∧ ∀ rest, readString (bytes ++ rest) = .ok (s, rest) := by
  cases h with
  | @intro content s hcontent =>
    refine ⟨utf8 content ++ [0x22], by rw [utf8_cons, utf8_append]; rfl, fun rest => ?_⟩
    rw [List.append_assoc, readString, List.singleton_append, hcontent.readContent_append, ok_bind]
    rw [List.reverse_nil, List.nil_append]
    dsimp only
    rw [fromUTF8?_utf8]
    rfl

/-! ### Numbers -/

/-- What comes next cannot go on a value: there is nothing, or a separator comes first. -/
def Separates (rest : List UInt8) : Prop := ∀ b, rest.head? = some b → b ∈ separators

/-- The end of a text ends a value. -/
theorem separates_nil : Separates [] := by
  intro b hb
  cases hb

/-- A separator is no digit, point or exponent mark, so that a number is not read past it. -/
theorem Separates.head_ne {b : UInt8} {rest : List UInt8} (h : Separates (b :: rest)) :
    isDigit b = false ∧ b ≠ 0x2E ∧ b ≠ 0x65 ∧ b ≠ 0x45 := by
  have hall : ∀ b ∈ separators, isDigit b = false ∧ b ≠ 0x2E ∧ b ≠ 0x65 ∧ b ≠ 0x45 :=
    List.all_iff_forall_prop.1 (by decide)
  exact hall b (h b rfl)

/-- What comes next is no digit. -/
def Digitless (rest : List UInt8) : Prop := ∀ b, rest.head? = some b → isDigit b = false

/-- Any other byte comes instead of a digit. -/
theorem digitless_cons {b : UInt8} (h : isDigit b = false) (rest : List UInt8) :
    Digitless (b :: rest) := by
  intro c hc
  cases hc
  exact h

/-- A separator is no digit. -/
theorem Separates.digitless {rest : List UInt8} (h : Separates rest) : Digitless rest := by
  cases rest with
  | nil =>
    intro b hb
    cases hb
  | cons b rest => exact digitless_cons h.head_ne.1 rest

/-- A separator comes first. -/
theorem separates_cons {b : UInt8} (h : b ∈ separators) (rest : List UInt8) :
    Separates (b :: rest) := by
  intro c hc
  cases hc
  exact h

/-- White space in front of a separator separates as well. -/
theorem separates_spaces {cs : List Char} (h : Spaces cs) {rest : List UInt8}
    (hrest : Separates rest) : Separates (utf8 cs ++ rest) := by
  cases cs with
  | nil => exact hrest
  | cons c cs =>
    obtain ⟨byte, hbyte, -, mem⟩ := h.exists_byte List.mem_cons_self
    rw [utf8_cons, hbyte, List.append_assoc]
    exact separates_cons mem _

/-- A decimal digit is one byte with the same value. -/
theorem byte_of_isDigit {c : Char} (h : c.isDigit = true) :
    ∃ b, String.utf8EncodeChar c = [b] ∧ isDigit b = true ∧
      digitValue b = c.toNat - '0'.toNat := by
  have hlt : c.toNat < 0x80 := by
    rw [Char.isDigit, Bool.and_eq_true, decide_eq_true_eq, decide_eq_true_eq] at h
    exact Nat.lt_of_le_of_lt (m := '9'.toNat) h.2 (by decide)
  have hsame : ∀ n < 0x80, (Char.ofNat n).isDigit = true → isDigit (UInt8.ofNat n) = true ∧
      digitValue (UInt8.ofNat n) = n - '0'.toNat := by
    decide +kernel
  have hc := hsame c.toNat hlt
  rw [Char.ofNat_toNat] at hc
  exact ⟨_, utf8EncodeChar_of_lt hlt, hc h⟩

/-- More digits make a number no smaller. -/
theorem le_ofDigitChars (ds : List Char) (n : Nat) : n ≤ Nat.ofDigitChars 10 ds n := by
  rw [Nat.ofDigitChars_eq_ofDigitChars_zero]
  have hpos : 0 < 10 ^ ds.length := Nat.pow_pos (by decide)
  have hle := Nat.le_mul_of_pos_left n hpos
  omega

/-- Digits are taken in as long as the number stays below the bound, and here it does to their
end. -/
theorem takeDigits_append {ds : List Char} (hds : ∀ c ∈ ds, c.isDigit = true) {bound n : Nat}
    (hbound : Nat.ofDigitChars 10 ds n < bound) (taken : Nat) {rest : List UInt8}
    (hrest : Digitless rest) :
    takeDigits bound n taken (utf8 ds ++ rest)
      = (Nat.ofDigitChars 10 ds n, taken + ds.length, rest) := by
  induction ds generalizing n taken with
  | nil =>
    rw [utf8_nil, List.nil_append, Nat.ofDigitChars_nil]
    cases rest with
    | nil => rfl
    | cons b rest =>
      rw [takeDigits, hrest b rfl]
      rfl
  | cons c ds ih =>
    obtain ⟨hc, hds⟩ := List.forall_mem_cons.1 hds
    obtain ⟨b, hb, hdigit, hvalue⟩ := byte_of_isDigit hc
    have hnext : n * 10 + digitValue b = 10 * n + (c.toNat - '0'.toNat) := by
      rw [hvalue, Nat.mul_comm]
    rw [Nat.ofDigitChars_cons] at hbound ⊢
    -- What is read so far is at most the whole number, so that no digit is left over.
    have hlt := Nat.lt_of_le_of_lt (le_ofDigitChars ds _) hbound
    rw [utf8_cons, hb, List.append_assoc, List.singleton_append, takeDigits, hdigit, hnext,
      decide_eq_true hlt]
    refine (ih hds hbound (taken + 1)).trans ?_
    rw [List.length_cons, Nat.add_assoc, Nat.add_comm 1]

/-- Only the numeral of zero starts with a zero. -/
theorem head?_toDigits_ne {n : Nat} (h : 0 < n) : (Nat.toDigits 10 n).head? ≠ some '0' := by
  induction n using Nat.strongRecOn with
  | ind n ih =>
    by_cases hlt : n < 10
    · have hall : ∀ k < 10, 0 < k → Nat.digitChar k ≠ '0' := by decide
      rw [Nat.toDigits_of_lt_base hlt, List.head?_cons, ne_eq, Option.some.injEq]
      exact hall n hlt h
    · have hle : 10 ≤ n := Nat.not_lt.1 hlt
      obtain ⟨c, ds, hcs⟩ := List.exists_cons_of_ne_nil (@Nat.toDigits_ne_nil (n / 10) 10)
      rw [Nat.toDigits_of_base_le (by decide) hle, hcs, List.cons_append, List.head?_cons,
        ← List.head?_cons (l := ds), ← hcs]
      exact ih (n / 10) (Nat.div_lt_self h (by decide)) (Nat.div_pos hle (by decide))

/-- The digit of value zero. -/
theorem eq_zero_of_isDigit {c : Char} (h : c.isDigit = true) (hvalue : c.toNat - '0'.toNat = 0) :
    c = '0' := by
  rw [Char.isDigit, Bool.and_eq_true, decide_eq_true_eq, decide_eq_true_eq] at h
  have hle : '0'.toNat ≤ c.toNat := h.1
  exact Char.toNat_inj.1 (Nat.le_antisymm (Nat.sub_eq_zero_iff_le.1 hvalue) hle)

/-- Where no digit comes none is dropped. -/
theorem skipDigits_of_digitless {rest : List UInt8} (h : Digitless rest) :
    skipDigits rest = (0, rest) := by
  cases rest with
  | nil => rfl
  | cons b rest => simp [skipDigits, h b rfl]

/-- The digits of a whole number. A zero in front is the only digit. -/
structure WholeText (ds : List Char) : Prop where
  digits : Digits ds
  head : ds.head? = some '0' → ds = ['0']

/-- The digits of a number have no zero in front. -/
theorem wholeText_toDigits (n : Nat) : WholeText (Nat.toDigits 10 n) := by
  refine ⟨digits_toDigits n, fun hhead => ?_⟩
  obtain rfl | hpos := Nat.eq_zero_or_pos n
  · exact Nat.toDigits_zero 10
  · exact absurd hhead (head?_toDigits_ne hpos)

/-- Reads what follows the digits of a whole number. -/
def readAfterWhole (negative : Bool) (significand : Nat) :
    List UInt8 → Except Stop (Numeral × List UInt8)
  | 0x2E :: more => readFraction negative significand 0 more
  | 0x65 :: more => readExponent negative significand 0 more
  | 0x45 :: more => readExponent negative significand 0 more
  | rest => .ok (integerNumeral negative significand, rest)

/-- The digits in front of a number are read, and what follows says what kind of number it is. -/
theorem readNumeral_whole (negative : Bool) {ds : List Char} (h : WholeText ds)
    (hbound : natOfDigits ds < 2 ^ 64) {rest : List UInt8} (hrest : Digitless rest) :
    readNumeral negative (utf8 ds ++ rest) = readAfterWhole negative (natOfDigits ds) rest := by
  obtain ⟨⟨hne, hdigits⟩, hhead⟩ := h
  have htake := takeDigits_append hdigits hbound 0 hrest
  obtain ⟨c, ds, rfl⟩ := List.exists_cons_of_ne_nil hne
  obtain ⟨b, hb, hdigit, hvalue⟩ := byte_of_isDigit (hdigits c List.mem_cons_self)
  -- No digit follows a leading zero.
  have hlead : (decide (b = 0x30) && (utf8 ds ++ rest).head?.any isDigit) = false := by
    rw [Bool.and_eq_false_imp, decide_eq_true_eq]
    rintro rfl
    have hzero : c = '0' := eq_zero_of_isDigit (hdigits c List.mem_cons_self) hvalue.symm
    rw [(List.cons.inj (hhead (by rw [hzero, List.head?_cons]))).2, utf8_nil, List.nil_append]
    cases rest with
    | nil => rfl
    | cons b rest => exact hrest b rfl
  rw [utf8_cons, hb, List.append_assoc, List.singleton_append] at htake ⊢
  rw [readNumeral]
  simp only [hdigit, hlead, htake, skipDigits_of_digitless hrest, if_true]
  rw [if_neg (by decide), if_neg (by decide), readAfterWhole.eq_def]
  rfl

/-- An integer is read from its digits. -/
theorem readNumeral_append (negative : Bool) {n : Nat} (hn : n < 2 ^ 64) {rest : List UInt8}
    (hrest : Separates rest) :
    readNumeral negative (utf8 (Nat.toDigits 10 n) ++ rest)
      = .ok (integerNumeral negative n, rest) := by
  have hvalue := natOfDigits_toDigits n
  rw [readNumeral_whole negative (wholeText_toDigits n) (hvalue.symm ▸ hn) hrest.digitless, hvalue]
  cases rest with
  | nil => rfl
  | cons b rest =>
    obtain ⟨-, hpoint, he, hE⟩ := hrest.head_ne
    rw [readAfterWhole.eq_def]
    split
    · next heq => exact absurd (List.cons.inj heq).1 hpoint
    · next heq => exact absurd (List.cons.inj heq).1 he
    · next heq => exact absurd (List.cons.inj heq).1 hE
    · rfl

/-! ### Scalars -/

/-- The byte is neither a separator nor the start of a container. -/
def opensScalar (b : UInt8) : Bool := b ∉ separators && b != 0x5B && b != 0x7B

/-- A digit opens a scalar. -/
theorem opensScalar_of_isDigit {b : UInt8} (h : isDigit b = true) : opensScalar b = true := by
  have hall : ∀ m < 0x100, isDigit (UInt8.ofNat m) = true → opensScalar (UInt8.ofNat m) = true := by
    decide +kernel
  have hb := hall b.toNat b.toNat_lt
  rw [UInt8.ofNat_toNat] at hb
  exact hb h

/-- Behind a digit a number is read. -/
theorem readScalar_of_isDigit {b : UInt8} (h : isDigit b = true) (bytes : List UInt8) :
    readScalar Value.builder b bytes = (readNumeral false (b :: bytes)).bind fun numeral =>
      .ok (Value.builder.number numeral.1, numeral.2) := by
  rw [readScalar.eq_def]
  split
  case h_6 => rw [if_pos h]; rfl
  all_goals exact absurd h (by decide)

/-- The digits of an integer of 63 bits and its sign are that integer again. -/
theorem integerNumeral_natAbs {n : Int} (hn : n.natAbs < 2 ^ 63) :
    integerNumeral (decide (n < 0)) n.natAbs = .integer n := by
  by_cases hneg : n < 0
  · have hzero : n.natAbs ≠ 0 := by omega
    have hmost : ¬2 ^ 63 < n.natAbs := by omega
    have hvalue : -(n.natAbs : Int) = n := by omega
    rw [integerNumeral, decide_eq_true hneg, decide_eq_false hzero, decide_eq_false hmost, hvalue]
    rfl
  · have hvalue : (n.natAbs : Int) = n := by omega
    rw [integerNumeral, decide_eq_false hneg, hvalue]
    rfl

/-- Every scalar is read as itself up to a separator, and its first byte says that it is one. -/
theorem ScalarText.exists_readScalar {cs : List Char} {v : Value} (h : ScalarText cs v) :
    ∃ b bytes, utf8 cs = b :: bytes ∧ opensScalar b = true ∧ ∀ rest, Separates rest →
      readScalar Value.builder b (bytes ++ rest) = .ok (v, rest) := by
  cases h with
  | null => exact ⟨0x6E, [0x75, 0x6C, 0x6C], rfl, by decide, fun _ _ => rfl⟩
  | boolTrue => exact ⟨0x74, [0x72, 0x75, 0x65], rfl, by decide, fun _ _ => rfl⟩
  | boolFalse => exact ⟨0x66, [0x61, 0x6C, 0x73, 0x65], rfl, by decide, fun _ _ => rfl⟩
  | string hs =>
    obtain ⟨bytes, hbytes, hread⟩ := hs.exists_readString
    refine ⟨0x22, bytes, hbytes, by decide, fun rest _ => ?_⟩
    rw [readScalar, hread, ok_bind]
    rfl
  | @number n hn =>
    have hbound : n.natAbs < 2 ^ 64 := Nat.lt_trans hn (by decide)
    have hnumeral := integerNumeral_natAbs hn
    rw [integerText]
    -- The byte that picks the reader is the sign here, or the first digit.
    by_cases hneg : n < 0
    · rw [decide_eq_true hneg] at hnumeral
      refine ⟨0x2D, utf8 (Nat.toDigits 10 n.natAbs), by rw [if_pos hneg]; rfl, by decide, ?_⟩
      intro rest hrest
      rw [readScalar, readNumeral_append true hbound hrest, hnumeral, ok_bind]
      rfl
    · rw [decide_eq_false hneg] at hnumeral
      obtain ⟨hne, hdigits⟩ := digits_toDigits n.natAbs
      obtain ⟨c, ds, hcs⟩ := List.exists_cons_of_ne_nil hne
      obtain ⟨b, hb, hbdigit, -⟩ := byte_of_isDigit (hdigits c (hcs ▸ List.mem_cons_self))
      have hbytes : utf8 (Nat.toDigits 10 n.natAbs) = b :: utf8 ds := by
        rw [hcs, utf8_cons, hb, List.singleton_append]
      refine ⟨b, utf8 ds, by rw [if_neg hneg, List.nil_append, hbytes],
        opensScalar_of_isDigit hbdigit, ?_⟩
      intro rest hrest
      rw [readScalar_of_isDigit hbdigit, ← List.cons_append, ← hbytes,
        readNumeral_append false hbound hrest, hnumeral]
      rfl

/-! ### Containers -/

/-- The texts of a part start with a byte of their own, and the reader takes each of them whole. -/
structure Reads {α : Type} (read : List UInt8 → Except Stop (α × List UInt8))
    (part : List Char → α → Prop) : Prop where
  opens : ∀ {cs : List Char} {a : α}, part cs a →
    ∃ b bytes, utf8 cs = b :: bytes ∧ b ∉ separators
  reads : ∀ {cs : List Char} {a : α}, part cs a → ∀ {rest : List UInt8}, Separates rest →
    read (utf8 cs ++ rest) = .ok (a, rest)

/-- White space is among the separators. -/
theorem isSpace_of_not_mem {b : UInt8} (h : b ∉ separators) : isSpace b = false := by
  by_contra hspace
  rw [Bool.not_eq_false, isSpace, Bool.or_eq_true, Bool.or_eq_true, Bool.or_eq_true, beq_iff_eq,
    beq_iff_eq, beq_iff_eq, beq_iff_eq] at hspace
  obtain ((rfl | rfl) | rfl) | rfl := hspace <;> exact absurd h (by decide)

section
variable {α : Type} {read : List UInt8 → Except Stop (α × List UInt8)}
  {part : List Char → α → Prop}

/-- A part between white space is read up to the white space behind it. -/
theorem Reads.exists_read (h : Reads read part) {before cs after : List Char} {a : α}
    (hbefore : Spaces before) (ha : part cs a) (hafter : Spaces after) {rest : List UInt8}
    (hrest : Separates rest) :
    ∃ b bytes, skipSpace (utf8 (before ++ cs ++ after) ++ rest) = b :: bytes ∧ b ∉ separators ∧
      read (b :: bytes) = .ok (a, utf8 after ++ rest) := by
  obtain ⟨b, bytes, hbytes, hb⟩ := h.opens ha
  have hread := h.reads ha (separates_spaces hafter hrest)
  rw [hbytes] at hread
  refine ⟨b, bytes ++ (utf8 after ++ rest), ?_, hb, hread⟩
  rw [utf8_append, utf8_append, List.append_assoc, List.append_assoc, skipSpace_append hbefore,
    hbytes, List.cons_append, skipSpace_cons (isSpace_of_not_mem hb)]

variable {brackets : Brackets} (hbrackets : brackets.close ∈ [0x5D, 0x7D])
include hbrackets

/-- A closing bracket ends a value. -/
theorem close_mem_separators : brackets.close ∈ separators := by
  have hall : ∀ b ∈ [0x5D, 0x7D], b ∈ separators := List.all_iff_forall_prop.1 (by decide)
  exact hall _ hbrackets

/-- It is no white space. -/
theorem skipSpace_close (rest : List UInt8) :
    skipSpace (brackets.close :: rest) = brackets.close :: rest := by
  have hall : ∀ b ∈ [0x5D, 0x7D], isSpace b = false := List.all_iff_forall_prop.1 (by decide)
  exact skipSpace_cons (hall _ hbrackets) rest

/-- What is no separator is no closing bracket. -/
theorem ne_close {b : UInt8} (h : b ∉ separators) : b ≠ brackets.close := by
  rintro rfl
  exact h (close_mem_separators hbrackets)

/-- The first part is read, and the others behind it up to the closing bracket. -/
theorem PartsText.exists_readMore (hreads : Reads read part) {text : List Char} {as : List α}
    (h : PartsText part text as) {count : Nat} (hcount : as.length ≤ count) (rest : List UInt8) :
    ∃ b bytes first others between,
      skipSpace (utf8 text ++ brackets.close :: rest) = b :: bytes ∧ b ∉ separators ∧
        read (b :: bytes) = .ok (first, between) ∧
        readMore brackets read count between = .ok (others, rest) ∧ as = first :: others := by
  -- Induction on the parts; the count of bytes left falls with each part that is read.
  induction h generalizing count with
  | @single before cs after a hbefore ha hafter =>
    obtain ⟨count, rfl⟩ := Nat.exists_eq_succ_of_ne_zero (Nat.ne_of_gt hcount)
    have hclose := separates_cons (close_mem_separators hbrackets) rest
    obtain ⟨b, bytes, hbytes, hb, hread⟩ := hreads.exists_read hbefore ha hafter hclose
    refine ⟨b, bytes, a, [], _, hbytes, hb, hread, ?_, rfl⟩
    rw [readMore, skipSpace_append hafter, skipSpace_close hbrackets]
    exact if_pos rfl
  | @cons before cs after more a as hbefore ha hafter hmore ih =>
    obtain ⟨count, rfl⟩ := Nat.exists_eq_succ_of_ne_zero (Nat.ne_of_gt (Nat.zero_lt_of_lt hcount))
    have hcomma : ∀ tail, Separates (0x2C :: tail) := separates_cons (by decide)
    obtain ⟨b, bytes, hbytes, hb, hread⟩ := hreads.exists_read hbefore ha hafter
      (hcomma (utf8 more ++ brackets.close :: rest))
    obtain ⟨b', bytes', first, others, between, hbytes', hb', hfirst, hothers, rfl⟩ :=
      ih (Nat.le_of_succ_le_succ hcount)
    refine ⟨b, bytes, a, first :: others, _, ?_, hb, hread, ?_, rfl⟩
    · rw [utf8_append, List.append_assoc, ← hbytes]
      rfl
    · have hne : (0x2C : UInt8) ≠ brackets.close := by
        have hall : ∀ c ∈ [0x5D, 0x7D], (0x2C : UInt8) ≠ c :=
          List.all_iff_forall_prop.1 (by decide)
        exact hall _ hbrackets
      have hspace : skipSpace (0x2C :: (utf8 more ++ brackets.close :: rest))
          = 0x2C :: (utf8 more ++ brackets.close :: rest) := skipSpace_cons rfl _
      rw [readMore, skipSpace_append hafter, hspace]
      dsimp only
      rw [if_neg hne, if_pos rfl, hbytes']
      dsimp only
      rw [if_neg (ne_close hbrackets hb'), hfirst, ok_bind]
      dsimp only
      rw [hothers, ok_bind]
      rfl

/-- What stands between brackets is read part by part, up to the closing one. The bound on the
number of parts only has to reach as far as there are any. -/
theorem ListText.readParts_append (hreads : Reads read part) {text : List Char} {as : List α}
    (h : ListText part text as) {count : Nat} (hcount : as.length ≤ count) (rest : List UInt8) :
    readParts brackets read count (utf8 text ++ brackets.close :: rest) = .ok (as, rest) := by
  cases h with
  | empty =>
    rw [utf8_nil, List.nil_append, readParts, skipSpace_close hbrackets]
    exact if_pos rfl
  | parts h =>
    obtain ⟨b, bytes, first, others, between, hbytes, hb, hfirst, hothers, rfl⟩ :=
      h.exists_readMore hbrackets hreads hcount rest
    rw [readParts, hbytes]
    dsimp only
    rw [if_neg (ne_close hbrackets hb), hfirst, ok_bind]
    dsimp only
    rw [hothers, ok_bind]
    rfl

end

section
variable {α : Type} {part part' : List Char → α → Prop} {text : List Char}

/-- There is a character or more for each part but one, as a comma follows it. -/
theorem PartsText.length_le {as : List α} (h : PartsText part text as) :
    as.length ≤ text.length + 1 := by
  induction h with
  | single => simp
  | cons _ _ _ _ ih =>
    simp only [List.length_append, List.length_cons]
    omega

/-- The parts of a list are shorter than its text, so that what is known of shorter texts applies to
them. -/
theorem PartsText.imp {as : List α} (h : PartsText part text as) {n : Nat}
    (hn : text.length ≤ n) (himp : ∀ cs a, cs.length ≤ n → part cs a → part' cs a) :
    PartsText part' text as := by
  induction h with
  | single hbefore ha hafter =>
    simp only [List.length_append] at hn
    exact .single hbefore (himp _ _ (by omega) ha) hafter
  | cons hbefore ha hafter _ ih =>
    simp only [List.length_append, List.length_cons] at hn
    exact .cons hbefore (himp _ _ (by omega) ha) hafter (ih (by omega))

/-- What stands between brackets has at most one part more than it has characters. -/
theorem ListText.length_le {as : List α} (h : ListText part text as) :
    as.length ≤ text.length + 1 := by
  cases h with
  | empty => exact Nat.zero_le _
  | parts h => exact h.length_le

/-- Between brackets, too, all that has to be known of the parts is known of texts no longer than
the whole. -/
theorem ListText.imp {as : List α} (h : ListText part text as) {n : Nat}
    (hn : text.length ≤ n) (himp : ∀ cs a, cs.length ≤ n → part cs a → part' cs a) :
    ListText part' text as := by
  cases h with
  | empty => exact .empty
  | parts h => exact .parts (h.imp hn himp)

/-- The same for the value of a member. -/
theorem MemberText.imp {m : String × α} (h : MemberText part text m) {n : Nat}
    (hn : text.length ≤ n) (himp : ∀ cs a, cs.length ≤ n → part cs a → part' cs a) :
    MemberText part' text m := by
  cases h with
  | intro hname hbefore hafter hvalue =>
    simp only [List.length_append, List.length_cons] at hn
    exact .intro hname hbefore hafter (himp _ _ (by omega) hvalue)

/-- A member is read if its value is, by a reader that passes over white space first. -/
theorem Reads.member {read : List UInt8 → Except Stop (α × List UInt8)} (h : Reads read part)
    (hskip : ∀ {cs : List Char}, Spaces cs → ∀ rest, read (utf8 cs ++ rest) = read rest) :
    Reads (readMember read) (MemberText part) where
  opens hm := by
    obtain ⟨hname, -, -, -⟩ := hm
    obtain ⟨bytes, hbytes, -⟩ := hname.exists_readString
    rw [List.append_assoc, utf8_append, hbytes]
    exact ⟨0x22, _, rfl, by decide⟩
  reads hm rest hrest := by
    obtain ⟨hname, hbefore, hafter, hvalue⟩ := hm
    obtain ⟨bytes, hbytes, hread⟩ := hname.exists_readString
    next name before after cs key a =>
    -- The quote goes to the reader of members, the blanks around the colon to `skipSpace`.
    have htext : utf8 (name ++ before ++ ':' :: (after ++ cs)) ++ rest
        = 0x22 :: (bytes ++ (utf8 before ++ 0x3A :: (utf8 after ++ (utf8 cs ++ rest)))) := by
      have hcolon : String.utf8EncodeChar ':' = [0x3A] := rfl
      simp only [utf8_append, utf8_cons, hbytes, hcolon, List.append_assoc, List.cons_append,
        List.nil_append]
    have hspace : skipSpace (0x3A :: (utf8 after ++ (utf8 cs ++ rest)))
        = 0x3A :: (utf8 after ++ (utf8 cs ++ rest)) := skipSpace_cons rfl _
    rw [htext, readMember, hread, ok_bind]
    dsimp only
    rw [skipSpace_append hbefore, hspace]
    show (read (utf8 after ++ (utf8 cs ++ rest)) >>= _) = _
    rw [hskip hafter, h.reads hvalue hrest, ok_bind]
    rfl

end

/-! ### Values -/

section
variable {count limit budget room : Nat}

/-- White space in front of a value is passed over. -/
theorem readValue_spaces {cs : List Char} (h : Spaces cs) (rest : List UInt8) :
    readValue Value.builder count limit budget room (utf8 cs ++ rest)
      = readValue Value.builder count limit budget room rest := by
  rw [readValue.eq_def, skipSpace_append h, ← readValue.eq_def]

/-- What starts with no opening bracket is a scalar, whatever the budgets are. -/
theorem readValue_eq_readScalar {α : Type} {builder : Builder α} {b : UInt8}
    {cs bytes : List UInt8} (hspace : skipSpace cs = b :: bytes) (hbracket : b ≠ 0x5B)
    (hbrace : b ≠ 0x7B) :
    readValue builder count limit budget room cs = readScalar builder b bytes := by
  rw [readValue.eq_def, hspace]
  split
  · contradiction
  · next heq => exact absurd (List.cons.inj heq).1 hbracket
  · next heq => exact absurd (List.cons.inj heq).1 hbrace
  · next heq =>
    cases heq
    rfl

/-- A byte that opens a scalar leads to the reader of scalars, whatever the limits are. -/
theorem readValue_scalar {b : UInt8} (h : opensScalar b = true) (bytes : List UInt8) :
    readValue Value.builder count limit budget room (b :: bytes)
      = readScalar Value.builder b bytes := by
  rw [opensScalar, Bool.and_eq_true, Bool.and_eq_true, decide_eq_true_eq, bne_iff_ne,
    bne_iff_ne] at h
  obtain ⟨⟨hb, hbracket⟩, hbrace⟩ := h
  exact readValue_eq_readScalar (skipSpace_cons (isSpace_of_not_mem hb) bytes) hbracket hbrace

variable (count limit budget room) in
/-- The reader of values reads every scalar. -/
theorem reads_scalar : Reads (readValue Value.builder count limit budget room) ScalarText where
  opens h := by
    obtain ⟨b, bytes, hbytes, hopens, -⟩ := h.exists_readScalar
    rw [opensScalar, Bool.and_eq_true, Bool.and_eq_true, decide_eq_true_eq] at hopens
    exact ⟨b, bytes, hbytes, hopens.1.1⟩
  reads h rest hrest := by
    obtain ⟨b, bytes, hbytes, hopens, hread⟩ := h.exists_readScalar
    rw [hbytes, List.cons_append, readValue_scalar hopens, hread rest hrest]

/-- An array takes one from the budget and from the room, and its items are read with what is
left. -/
theorem readValue_array {bytes rest : List UInt8} {items : List Value}
    (h : readParts arrayBrackets (readValue Value.builder count limit budget room) count bytes
      = .ok (items, rest)) :
    readValue Value.builder count limit (budget + 1) (room + 1) (0x5B :: bytes)
      = .ok (.array items, rest) := by
  have hspace : skipSpace (0x5B :: bytes) = 0x5B :: bytes := skipSpace_cons rfl bytes
  rw [readValue, hspace]
  show (readParts arrayBrackets (readValue Value.builder count limit budget room) count bytes
    >>= _) = _
  rw [h]
  rfl

/-- An object does as well, and a repeated key keeps its last value. -/
theorem readValue_object {bytes rest : List UInt8} {members : List (String × Value)}
    (h : readParts objectBrackets (readMember (readValue Value.builder count limit budget room))
      count bytes = .ok (members, rest)) :
    readValue Value.builder count limit (budget + 1) (room + 1) (0x7B :: bytes)
      = .ok (.object (Members.ofPairs members), rest) := by
  have hspace : skipSpace (0x7B :: bytes) = 0x7B :: bytes := skipSpace_cons rfl bytes
  rw [readValue, hspace]
  show (readParts objectBrackets (readMember (readValue Value.builder count limit budget room))
    count bytes >>= _) = _
  rw [h]
  rfl

/-- Values are read whose texts stand for them, with budgets for their depth. -/
theorem reads_readValue {depth : Nat} (hbudget : depth ≤ budget) (hroom : depth ≤ room) :
    Reads (readValue Value.builder count limit budget room)
      (fun cs v => ValueText depth cs v ∧ cs.length ≤ count) := by
  -- A container takes one from both budgets, and its parts are one level less deep.
  induction depth generalizing budget room with
  | zero =>
    have hscalar := reads_scalar count limit budget room
    exact ⟨fun h => hscalar.opens h.1, fun h _ => hscalar.reads h.1⟩
  | succ depth ih =>
    obtain ⟨budget, rfl⟩ : ∃ n, budget = n + 1 := ⟨budget - 1, by omega⟩
    obtain ⟨room, rfl⟩ : ∃ n, room = n + 1 := ⟨room - 1, by omega⟩
    have hscalar := reads_scalar count limit (budget + 1) (room + 1)
    have hreads := ih (Nat.le_of_succ_le_succ hbudget) (Nat.le_of_succ_le_succ hroom)
    constructor
    · rintro cs v ⟨h | ⟨inner, items, rfl, -⟩ | ⟨inner, members, rfl, -⟩, -⟩
      · exact hscalar.opens h
      · exact ⟨0x5B, _, rfl, by decide⟩
      · exact ⟨0x7B, _, rfl, by decide⟩
    · rintro cs v ⟨h, hcount⟩ rest hrest
      -- The text between two brackets is long enough to bound the number of parts in it.
      have hbound {inner : List Char} {a b : Char}
          (hinner : (a :: (inner ++ [b])).length ≤ count) : inner.length + 1 ≤ count := by
        simp only [List.length_cons, List.length_append] at hinner
        omega
      obtain h | ⟨inner, items, rfl, rfl, hitems⟩ | ⟨inner, members, rfl, rfl, nodup, hmembers⟩ := h
      · exact hscalar.reads h hrest
      · have hle := hbound hcount
        have hlist := hitems.imp (Nat.le_of_lt hle) fun cs v hcs hv => And.intro hv hcs
        have hbrackets : arrayBrackets.close ∈ [0x5D, 0x7D] := by decide
        have hparts := hlist.readParts_append hbrackets hreads
          (Nat.le_trans hlist.length_le hle) rest
        rw [utf8_cons, utf8_append, List.append_assoc, List.append_assoc]
        exact readValue_array hparts
      · have hle := hbound hcount
        have hlist := hmembers.imp (Nat.le_of_lt hle) fun cs m hcs hm =>
          hm.imp hcs fun cs v hcs hv => And.intro hv hcs
        have hbrackets : objectBrackets.close ∈ [0x5D, 0x7D] := by decide
        have hparts := hlist.readParts_append hbrackets (hreads.member readValue_spaces)
          (Nat.le_trans hlist.length_le hle) rest
        rw [utf8_cons, utf8_append, List.append_assoc, List.append_assoc,
          ← Members.ofPairs_eq_self nodup]
        exact readValue_object hparts

end

end Json.Grammar

/-- The text of a document is read as that document. -/
theorem Value.parse_of_valueText {depth limit : Nat} {cs : List Char} {v : Value}
    (h : Json.Grammar.ValueText depth cs v) (hlimit : depth ≤ limit)
    (hnesting : depth ≤ Json.nestingLimit) :
    Value.parse limit (bytesOf (String.ofList cs)) = .ok v := by
  have hread : Json.readValue Value.builder (utf8 cs).length limit Json.nestingLimit limit
      (utf8 cs ++ []) = .ok (v, []) :=
    (Json.Grammar.reads_readValue hnesting hlimit).reads ⟨h, length_le_length_utf8 cs⟩
      Json.Grammar.separates_nil
  rw [List.append_nil] at hread
  rw [Value.parse, Json.readText, bytesOf_ofList, Json.readAll, hread]
  rfl

end JsonDoc
