import JsonDoc.Proofs.Outcome
import JsonDoc.Proofs.Path.Grammar
import Mathlib.Data.List.TakeDrop

/-!
# `JsonDoc.Proofs.Path.Token`: the readers of tokens

Each reader of a token takes exactly a text of its rule from the front of what it is given. There
are two statements for each:

* `readName_append` and its like: a text of the rule is read whole from the front of a longer
  text, as long as the rest does not go on in a way that a token could go on.
* `exists_nameText_of_readName` and its like: what a reader takes is a text of the rule, and it
  was the front of the text given.

Quoted strings carry their own end and put no condition on the rest. `readMany_append` and
`exists_sequenceText_of_readMany` do the same for a repetition of any reader.
-/

set_option autoImplicit false

namespace JsonDoc.Path.Grammar

open Number Text

/-! ### Blanks and single characters -/

/-- Blanks may be left out. -/
theorem blanks_nil : Blanks [] := by
  intro c hc
  exact absurd hc List.not_mem_nil

/-- The blanks at the front of a text make no difference to what is left after them. -/
theorem skipSpaces_append {bs rest : List Char} (h : Blanks bs) :
    skipSpaces (bs ++ rest) = skipSpaces rest :=
  List.dropWhile_append_of_pos h

/-- Where no blank comes next there is nothing to skip. -/
theorem skipSpaces_of_stops {rest : List Char} (h : Stops isSpace rest) :
    skipSpaces rest = rest := by
  cases rest with
  | nil => rfl
  | cons c rest => simp [skipSpaces, stops_cons.1 h]

/-- Blanks in front of a character that is none are skipped up to it. -/
theorem skipSpaces_append_cons {bs rest : List Char} {c : Char} (h : Blanks bs)
    (hc : isSpace c = false) : skipSpaces (bs ++ c :: rest) = c :: rest := by
  rw [skipSpaces_append h]
  exact skipSpaces_of_stops (stops_cons.2 hc)

/-- What is skipped are blanks. -/
theorem exists_blanks_append_skipSpaces (cs : List Char) :
    ∃ bs, cs = bs ++ skipSpaces cs ∧ Blanks bs := by
  refine ⟨cs.takeWhile isSpace, List.takeWhile_append_dropWhile.symm, ?_⟩
  exact fun c hc => List.all_eq_true.1 List.all_takeWhile c hc

/-- Blanks in front of a text that starts with none are skipped up to it. -/
theorem skipSpaces_append_text {bs cs : List Char} (h : Blanks bs)
    (hcs : ∃ c tail, cs = c :: tail ∧ isSpace c = false) (rest : List Char) :
    skipSpaces (bs ++ (cs ++ rest)) = cs ++ rest := by
  obtain ⟨c, tail, rfl, hc⟩ := hcs
  exact skipSpaces_append_cons h hc

/-- A character is expected and found exactly when it is the first of the text. -/
theorem expectChar_eq_ok_iff {c : Char} {expected : Expectation} {cs rest : List Char} :
    expectChar c expected cs = .ok rest ↔ cs = c :: rest := by
  cases cs with
  | nil => simp [expectChar]
  | cons d cs =>
    rw [expectChar]
    by_cases hd : d = c
    · simp [hd]
    · simp [hd]

/-- The expected character is taken. -/
@[simp] theorem expectChar_cons_self (c : Char) (expected : Expectation) (rest : List Char) :
    expectChar c expected (c :: rest) = .ok rest :=
  expectChar_eq_ok_iff.2 rfl

/-- Characters differ when a class tells them apart. -/
theorem ne_of_class {p : Char → Bool} {c d : Char} (hc : p c = true) (hd : p d = false) :
    c ≠ d := by
  rintro rfl
  rw [hc] at hd
  cases hd

/-! ### Names -/

/-- A name has at least one character. -/
theorem NameText.ne_nil {cs : List Char} {name : String} (h : NameText cs name) : cs ≠ [] := by
  rintro rfl
  exact absurd h.1 (by decide)

/-- All its characters may stand in names. -/
theorem NameText.forall_mem {cs : List Char} {name : String} (h : NameText cs name) :
    ∀ c ∈ cs, isNameChar c = true := by
  have hall := h.1
  rw [isName, Bool.and_eq_true] at hall
  exact List.all_eq_true.1 hall.2

/-- A name is read whole if it does not go on. -/
theorem readName_append {expected : Expectation} {cs rest : List Char} {name : String}
    (h : NameText cs name) (stops : Stops isNameChar rest) :
    readName expected (cs ++ rest) = .ok (name, rest) := by
  have hne : cs.isEmpty = false := by simpa using h.ne_nil
  rw [readName, span_append h.forall_mem stops]
  simp [hne, h.2]

/-- What is read as a name is the text of one. -/
theorem exists_nameText_of_readName {expected : Expectation} {cs rest : List Char}
    {name : String} (h : readName expected cs = .ok (name, rest)) :
    ∃ pre, cs = pre ++ rest ∧ NameText pre name := by
  rw [readName] at h
  cases hrun : cs.span isNameChar with
  | mk run after =>
    obtain ⟨rfl, hall, -⟩ := of_span hrun
    rw [hrun] at h
    dsimp only at h
    split at h
    · exact absurd h (by simp)
    · next hne =>
      simp only [Except.ok.injEq, Prod.mk.injEq] at h
      obtain ⟨rfl, rfl⟩ := h
      refine ⟨run, rfl, ?_, rfl⟩
      rw [isName, Bool.and_eq_true]
      exact ⟨by simpa using hne, List.all_eq_true.2 hall⟩

/-! ### Quoted strings -/

/-- The letters that may follow a backslash are those of the table. -/
theorem escaped?_eq_some_iff {c d : Char} : escaped? c = some d ↔ (c, d) ∈ escapes := by
  rw [escaped?.eq_def, escapes]
  split <;> simp_all [eq_comm]

/-- Four digits name a character exactly when its code point is their number. -/
theorem hexChar?_eq_some_iff {a b c d e : Char} :
    hexChar? a b c d = some e ↔ CodeText a b c d e := by
  simp only [hexChar?, CodeText, Option.bind_eq_bind, Option.bind_eq_some_iff]
  constructor
  · rintro ⟨i, ha, j, hb, k, hc, l, hd, h⟩
    refine ⟨i, j, k, l, ha, hb, hc, hd, ?_⟩
    split at h
    · next hvalid =>
      obtain rfl := Option.some.inj h
      rw [Char.ofNat, dif_pos hvalid]
      rfl
    · exact absurd h (by simp)
  · rintro ⟨i, j, k, l, ha, hb, hc, hd, hn⟩
    refine ⟨i, ha, j, hb, k, hc, l, hd, ?_⟩
    have hvalid : e.toNat.isValidChar := e.valid
    rw [← hn, if_pos hvalid, Char.ofNat_toNat]

/-- The content that was read before is put in front, last character first. -/
theorem readQuoted_append {quote : Char} {body content : List Char} (hquote : quote ≠ '\\')
    (h : ContentText quote body content) (before rest : List Char) :
    readQuoted quote before (body ++ quote :: rest)
      = .ok (String.ofList (before.reverse ++ content), rest) := by
  -- The cases of the content are the branches of the reader.
  induction h generalizing before with
  | nil =>
    -- Only the quote is left, and it is no backslash.
    rw [List.nil_append, readQuoted.eq_def]
    split
    · next heq => cases heq
    · next heq => exact absurd (List.cons.inj heq).1 hquote
    · next heq =>
      cases heq
      simp
  | @plain c cs s hc hback _ ih =>
    -- Neither the backslash nor the quote.
    rw [List.cons_append, readQuoted.eq_def]
    split
    · next heq => cases heq
    · next heq => exact absurd (List.cons.inj heq).1 hback
    · next heq =>
      cases heq
      rw [if_neg hc, ih]
      simp
  | @escape c d cs s hcd _ ih =>
    rw [List.cons_append, List.cons_append, readQuoted.eq_def]
    split
    · next heq => cases heq
    · next heq =>
      cases heq
      split
      · next heq =>
        -- No short escape is the mark of a code point.
        obtain ⟨rfl, -⟩ := List.cons.inj heq
        simp [escapes] at hcd
      · next heq =>
        cases heq
        rw [escaped?_eq_some_iff.2 hcd]
        dsimp only
        rw [ih]
        simp
      · next heq => cases heq
    · next hback heq =>
      cases heq
      exact absurd rfl hback
  | @code a b c d e cs s hcode _ ih =>
    rw [List.cons_append, List.cons_append, List.cons_append, List.cons_append, List.cons_append,
      List.cons_append, readQuoted]
    rw [hexChar?_eq_some_iff.2 hcode]
    dsimp only
    rw [ih]
    simp

/-- What is read up to the closing quote is the content of a string, behind what was read before. -/
theorem exists_contentText_of_readQuoted {quote : Char} {before cs rest : List Char} {s : String}
    (h : readQuoted quote before cs = .ok (s, rest)) :
    ∃ body content, cs = body ++ quote :: rest ∧ ContentText quote body content ∧
      s = String.ofList (before.reverse ++ content) := by
  fun_induction readQuoted quote before cs with
  | case1 => cases h
  | case2 before a b c d more e he ih =>
    -- Four digits after the mark of a code point.
    obtain ⟨body, content, rfl, hbody, rfl⟩ := ih h
    refine ⟨'\\' :: 'u' :: a :: b :: c :: d :: body, e :: content, rfl, ?_, by simp⟩
    exact .code (hexChar?_eq_some_iff.1 he) hbody
  | case3 => cases h
  | case4 before c more _ e he ih =>
    obtain ⟨body, content, rfl, hbody, rfl⟩ := ih h
    refine ⟨'\\' :: c :: body, e :: content, rfl, ?_, by simp⟩
    exact .escape (escaped?_eq_some_iff.1 he) hbody
  | case5 => cases h
  | case6 => cases h
  | case7 before more _ =>
    -- The quote that ends the string.
    cases h
    exact ⟨[], [], rfl, .nil, by simp⟩
  | case8 before c more hback hquote ih =>
    obtain ⟨body, content, rfl, hbody, rfl⟩ := ih h
    exact ⟨c :: body, c :: content, rfl, .plain hquote hback hbody, by simp⟩

/-! ### Integers -/

/-- A sign and the digits after it, when they stay within 64 bits. -/
theorem readIndex?_sign_append {negative : Bool} {sign ds rest : List Char}
    (hsign : SignText negative sign) (hds : Digits ds) (stops : Stops Char.isDigit rest)
    (low : -(2 ^ 63 : Int) ≤ if negative then -(natOfDigits ds : Int) else natOfDigits ds)
    (high : (if negative then -(natOfDigits ds : Int) else natOfDigits ds) < 2 ^ 63) :
    readIndex? (sign ++ ds ++ rest)
      = some (if negative then -(natOfDigits ds : Int) else natOfDigits ds, rest) := by
  have hne : ds.isEmpty = false := by simpa using hds.1
  have hstart : Stops isSign (ds ++ rest) := hds.stops_isSign
  rw [readIndex?, List.append_assoc, readSign_append hsign hstart]
  dsimp only
  rw [span_append hds.2 stops]
  simp only [hne, low, high, Bool.not_false, Bool.true_and, decide_true, if_true]

/-- An integer is read whole if no digit goes on. -/
theorem readIndex?_append {cs rest : List Char} {i : Int} (h : IntegerText cs i)
    (stops : Stops Char.isDigit rest) : readIndex? (cs ++ rest) = some (i, rest) := by
  cases h with
  | unsigned hds high =>
    simpa using readIndex?_sign_append .absent hds stops (by simp) (by simpa using high)
  | @plus ds hds high =>
    simpa using readIndex?_sign_append .plus hds stops (by simp) (by simpa using high)
  | @minus ds hds high =>
    have low : -(2 ^ 63 : Int) ≤ -(natOfDigits ds : Int) := by omega
    have high' : -(natOfDigits ds : Int) < 2 ^ 63 := by omega
    simpa using readIndex?_sign_append .minus hds stops (by simpa using low) (by simpa using high')

/-- What is read as an index is an integer of 64 bits. -/
theorem exists_integerText_of_readIndex? {cs rest : List Char} {i : Int}
    (h : readIndex? cs = some (i, rest)) : ∃ pre, cs = pre ++ rest ∧ IntegerText pre i := by
  rw [readIndex?] at h
  cases hsign : readSign cs with
  | mk negative after =>
    obtain ⟨sign, rfl, hsignText⟩ := exists_signText_of_readSign hsign
    cases hrun : after.span Char.isDigit with
    | mk ds after' =>
      obtain ⟨rfl, hall, -⟩ := of_span hrun
      rw [hsign] at h
      dsimp only at h
      rw [hrun] at h
      dsimp only at h
      -- There are digits, and the number has 64 bits.
      simp only [Option.ite_none_right_eq_some, Bool.and_eq_true, decide_eq_true_eq,
        Option.some.injEq, Prod.mk.injEq] at h
      obtain ⟨⟨⟨hne, low⟩, high⟩, rfl, rfl⟩ := h
      have hds : Digits ds := ⟨by simpa using hne, hall⟩
      refine ⟨sign ++ ds, by simp, ?_⟩
      cases hsignText with
      | absent => exact .unsigned hds high
      | plus => exact .plus hds high
      | minus =>
        rw [if_pos rfl] at low
        have size : (natOfDigits ds : Int) ≤ 2 ^ 63 := by omega
        exact .minus hds size

/-! ### Numbers -/

/-- A character with which a numeral could start. -/
def startsNumeral (c : Char) : Bool := isSign c || c.isDigit || c == '.'

/-- The letters of the names of numbers start no numeral. -/
theorem startsNumeral_eq_false_of_toLower {a l : Char} (hl : l = 'n' ∨ l = 'i')
    (h : a.toLower = l) : startsNumeral a = false := by
  by_contra hs
  simp only [startsNumeral, isSign, Bool.not_eq_false, Bool.or_eq_true, beq_iff_eq] at hs
  obtain ((rfl | rfl) | hdigit) | rfl := hs
  · rcases hl with rfl | rfl <;> exact absurd h (by decide)
  · rcases hl with rfl | rfl <;> exact absurd h (by decide)
  · -- A digit is its own lower case.
    have hsame : a.toLower = a := by
      rw [Char.isDigit, Bool.and_eq_true, decide_eq_true_eq, decide_eq_true_eq] at hdigit
      have hlower : ¬(a.val ≥ 'A'.val ∧ a.val ≤ 'Z'.val) := by
        intro hupper
        exact absurd (UInt32.le_trans hupper.1 hdigit.2) (by decide)
      exact dif_neg hlower
    rw [hsame] at h
    subst h
    rcases hl with rfl | rfl <;> exact absurd hdigit (by decide)
  · rcases hl with rfl | rfl <;> exact absurd h (by decide)

/-- Nothing but a sign, a digit or a point starts a numeral. -/
theorem read?_eq_none_of_not_startsNumeral {a : Char} {cs : List Char}
    (h : startsNumeral a = false) : Decimal.read? (a :: cs) = none := by
  simp only [startsNumeral, Bool.or_eq_false_iff, beq_eq_false_iff_ne] at h
  obtain ⟨⟨hsign, hdigit⟩, hpoint⟩ := h
  have hreadSign : readSign (a :: cs) = (false, a :: cs) :=
    readSign_append .absent (stops_cons.2 hsign)
  have hrun : (a :: cs).span Char.isDigit = ([], a :: cs) :=
    @span_append Char.isDigit [] (a :: cs) (by simp) (stops_cons.2 hdigit)
  have hmantissa : Decimal.readMantissa? (a :: cs) = none := by
    rw [Decimal.readMantissa?, hrun]
    dsimp only
    split
    · next heq => exact absurd (List.cons.inj heq).1 hpoint
    · rfl
  rw [Decimal.read?, hreadSign]
  simp only [hmantissa, Option.bind_eq_bind, Option.bind_none]

/-- A name of three letters is no numeral, whatever follows it. -/
theorem read?_eq_none_of_map_toLower {name : List Char} {l m n : Char} (rest : List Char)
    (hl : l = 'n' ∨ l = 'i') (h : name.map Char.toLower = [l, m, n]) :
    ∃ a b c, name = [a, b, c] ∧ a.toLower = l ∧ b.toLower = m ∧ c.toLower = n ∧
      Decimal.read? (a :: b :: c :: rest) = none := by
  simp only [List.map_eq_cons_iff, List.map_eq_nil_iff] at h
  obtain ⟨a, _, rfl, ha, b, _, rfl, hb, c, _, rfl, hc, rfl⟩ := h
  exact ⟨a, b, c, rfl, ha, hb, hc,
    read?_eq_none_of_not_startsNumeral (startsNumeral_eq_false_of_toLower hl ha)⟩

/-- A number is read whole if its numeral does not go on. -/
theorem readNumber?_append {cs rest : List Char} {x : Binary64} (h : NumberText cs x)
    (stops : Stops continuesNumeral rest) : Path.readNumber? (cs ++ rest) = some (x, rest) := by
  cases h with
  | numeral hd => rw [Path.readNumber?.eq_def, Decimal.read?_append hd stops]
  | nan hname =>
    obtain ⟨a, b, c, rfl, ha, hb, hc, hnone⟩ :=
      read?_eq_none_of_map_toLower rest (.inl rfl) hname
    rw [Path.readNumber?.eq_def, List.cons_append, List.cons_append, List.cons_append,
      List.nil_append, hnone]
    simp only [ha, hb, hc]
  | infinity hname =>
    obtain ⟨a, b, c, rfl, ha, hb, hc, hnone⟩ :=
      read?_eq_none_of_map_toLower rest (.inr rfl) hname
    rw [Path.readNumber?.eq_def, List.cons_append, List.cons_append, List.cons_append,
      List.nil_append, hnone]
    simp only [ha, hb, hc]

/-- What is read as a number is a numeral or a name of a number. -/
theorem exists_numberText_of_readNumber? {cs rest : List Char} {x : Binary64}
    (h : Path.readNumber? cs = some (x, rest)) : ∃ pre, cs = pre ++ rest ∧ NumberText pre x := by
  rw [Path.readNumber?.eq_def] at h
  -- Numerals come first, and no name of a number starts as a numeral does.
  split at h
  · next d after hd =>
    simp only [Option.some.injEq, Prod.mk.injEq] at h
    obtain ⟨rfl, rfl⟩ := h
    obtain ⟨pre, rfl, hpre⟩ := Decimal.exists_numeralText_of_read? hd
    exact ⟨pre, rfl, .numeral hpre⟩
  · next hd =>
    split at h
    · next a b c after =>
      split at h
      · next hname =>
        cases h
        exact ⟨[a, b, c], rfl, .nan hname⟩
      · next hname =>
        cases h
        exact ⟨[a, b, c], rfl, .infinity hname⟩
      · cases h
    · cases h

/-- A character with which a number could start. -/
def startsNumber (c : Char) : Bool := startsNumeral c || c.toLower == 'n' || c.toLower == 'i'

/-- The text of a numeral starts with a sign, a digit or a point. -/
theorem NumeralText.exists_cons {cs : List Char} {d : Decimal} (h : NumeralText cs d) :
    ∃ c tail, cs = c :: tail ∧ startsNumeral c = true := by
  obtain ⟨hsign, hmantissa, _⟩ := h
  cases hsign with
  | plus => exact ⟨'+', _, rfl, by decide⟩
  | minus => exact ⟨'-', _, rfl, by decide⟩
  | absent =>
    cases hmantissa with
    | whole hds =>
      obtain ⟨hne, hall⟩ := hds
      obtain ⟨c, ds, rfl⟩ := List.exists_cons_of_ne_nil hne
      exact ⟨c, _, rfl, by simp [startsNumeral, hall c List.mem_cons_self]⟩
    | @pointed ds fs hall _ _ =>
      cases ds with
      | nil => exact ⟨'.', _, rfl, by decide⟩
      | cons c ds => exact ⟨c, _, rfl, by simp [startsNumeral, hall c List.mem_cons_self]⟩

/-- The text of a number starts as a numeral does, or with the letter of a name. -/
theorem NumberText.exists_cons {cs : List Char} {x : Binary64} (h : NumberText cs x) :
    ∃ c tail, cs = c :: tail ∧ startsNumber c = true := by
  cases h with
  | numeral hd =>
    obtain ⟨c, tail, rfl, hc⟩ := NumeralText.exists_cons hd
    exact ⟨c, tail, rfl, by simp [startsNumber, hc]⟩
  | nan hname =>
    obtain ⟨a, b, c, rfl, ha, -⟩ := read?_eq_none_of_map_toLower [] (.inl rfl) hname
    exact ⟨a, [b, c], rfl, by simp [startsNumber, ha]⟩
  | infinity hname =>
    obtain ⟨a, b, c, rfl, ha, -⟩ := read?_eq_none_of_map_toLower [] (.inr rfl) hname
    exact ⟨a, [b, c], rfl, by simp [startsNumber, ha]⟩

/-! ### Comparisons and literals -/

/-- A comparison is read as it is written, unless an `=` behind it would make it longer. -/
theorem readComparison?_append (op : Comparison) {rest : List Char}
    (stops : Stops (· == '=') rest) :
    readComparison? (op.text ++ rest) = some (op, rest) := by
  cases op with
  | eq => rfl
  | ne => rfl
  | le => rfl
  | ge => rfl
  -- `<` and `>` must not go on as `<=` and `>=`.
  | lt =>
    cases rest with
    | nil => rfl
    | cons c rest =>
      have hc : c ≠ '=' := by simpa using stops
      simp [Comparison.text, readComparison?, hc]
  | gt =>
    cases rest with
    | nil => rfl
    | cons c rest =>
      have hc : c ≠ '=' := by simpa using stops
      simp [Comparison.text, readComparison?, hc]

/-- What is read as a comparison is its text. -/
theorem eq_append_of_readComparison? {op : Comparison} {cs rest : List Char}
    (h : readComparison? cs = some (op, rest)) : cs = op.text ++ rest := by
  rw [readComparison?.eq_def] at h
  split at h <;> cases h <;> rfl

/-- A literal is not empty, and no comparison or blank goes on with its first character. -/
theorem LiteralText.exists_cons {cs : List Char} {literal : Literal}
    (h : LiteralText cs literal) :
    ∃ c tail, cs = c :: tail ∧ isSpace c = false ∧ c ≠ '=' := by
  cases h with
  | null => exact ⟨'n', _, rfl, by decide, by decide⟩
  | boolTrue => exact ⟨'t', _, rfl, by decide, by decide⟩
  | boolFalse => exact ⟨'f', _, rfl, by decide, by decide⟩
  | string hs =>
    obtain ⟨rfl | rfl, _⟩ := hs
    · exact ⟨'"', _, rfl, by decide, by decide⟩
    · exact ⟨'\'', _, rfl, by decide, by decide⟩
  | number hx =>
    obtain ⟨c, tail, rfl, hc⟩ := hx.exists_cons
    refine ⟨c, tail, rfl, ?_, ?_⟩
    · -- A character that starts a number is neither blank nor `=`.
      by_contra hspace
      simp only [isSpace, Bool.not_eq_false, Bool.or_eq_true, beq_iff_eq] at hspace
      obtain ((rfl | rfl) | rfl) | rfl := hspace <;> exact absurd hc (by decide)
    · rintro rfl
      exact absurd hc (by decide)

/-- A quoted string is read whole, by its first quote. -/
theorem QuotedText.exists_readQuoted {cs : List Char} {s : String} (h : QuotedText cs s)
    (rest : List Char) : ∃ quote tail, (quote = '"' ∨ quote = '\'') ∧ cs = quote :: tail ∧
      readQuoted quote [] (tail ++ rest) = .ok (s, rest) := by
  obtain ⟨hquote, hcontent⟩ := h
  refine ⟨_, _, hquote, rfl, ?_⟩
  rw [List.append_assoc, List.singleton_append,
    readQuoted_append (by rcases hquote with rfl | rfl <;> decide) hcontent]
  rfl

/-- What is read from a quote on is a string in quotes. -/
theorem exists_quotedText_of_readQuoted {quote : Char} {cs rest : List Char} {s : String}
    (hquote : quote = '"' ∨ quote = '\'') (h : readQuoted quote [] cs = .ok (s, rest)) :
    ∃ pre, quote :: cs = pre ++ rest ∧ QuotedText pre s := by
  obtain ⟨body, content, rfl, hcontent, rfl⟩ := exists_contentText_of_readQuoted h
  exact ⟨quote :: (body ++ [quote]), by simp, .intro hquote hcontent⟩

/-- What is made of a string with its quotes is read where the string is. -/
theorem exists_text_of_quoted {α : Type} {rule : List Char → α → Prop} {make : String → α}
    (hrule : ∀ text s, QuotedText text s → rule text (make s)) {quote : Char} {cs rest : List Char}
    {a : α} (hquote : quote = '"' ∨ quote = '\'')
    (h : (readQuoted quote [] cs >>= fun x => pure (make x.1, x.2)) = .ok (a, rest)) :
    ∃ pre, quote :: cs = pre ++ rest ∧ rule pre a := by
  simp only [bind_eq_ok_iff, Prod.exists] at h
  obtain ⟨s, after, hread, h⟩ := h
  cases h
  obtain ⟨pre, heq, hpre⟩ := exists_quotedText_of_readQuoted hquote hread
  exact ⟨pre, heq, hrule pre s hpre⟩

/-- A literal is read whole if no numeral goes on. -/
theorem readLiteral_append {cs rest : List Char} {literal : Literal}
    (h : LiteralText cs literal) (stops : Stops continuesNumeral rest) :
    readLiteral (cs ++ rest) = .ok (literal, rest) := by
  cases h with
  | null => rfl
  | boolTrue => rfl
  | boolFalse => rfl
  | string hs =>
    obtain ⟨quote, tail, rfl | rfl, rfl, hread⟩ := hs.exists_readQuoted rest
    · rw [List.cons_append, readLiteral, hread]
      rfl
    · rw [List.cons_append, readLiteral, hread]
      rfl
  | number hx =>
    have hread := readNumber?_append hx stops
    obtain ⟨c, tail, rfl, hc⟩ := hx.exists_cons
    rw [readLiteral.eq_def]
    -- The other literals have first letters that no number has, and `null` is no number.
    split
    · next heq =>
      rw [heq] at hread
      cases hread
    · next heq => exact absurd (List.cons.inj heq).1 (ne_of_class hc (by decide))
    · next heq => exact absurd (List.cons.inj heq).1 (ne_of_class hc (by decide))
    · next heq => exact absurd (List.cons.inj heq).1 (ne_of_class hc (by decide))
    · next heq => exact absurd (List.cons.inj heq).1 (ne_of_class hc (by decide))
    · rw [hread]

/-- What is read as a literal is the text of one. -/
theorem exists_literalText_of_readLiteral {cs rest : List Char} {literal : Literal}
    (h : readLiteral cs = .ok (literal, rest)) :
    ∃ pre, cs = pre ++ rest ∧ LiteralText pre literal := by
  rw [readLiteral.eq_def] at h
  -- Three words, two quotes, and a number where none of them stands.
  split at h
  · cases h
    exact ⟨_, rfl, .null⟩
  · cases h
    exact ⟨_, rfl, .boolTrue⟩
  · cases h
    exact ⟨_, rfl, .boolFalse⟩
  · exact exists_text_of_quoted (fun _ _ => .string) (.inl rfl) h
  · exact exists_text_of_quoted (fun _ _ => .string) (.inr rfl) h
  · split at h
    · next hread =>
      cases h
      obtain ⟨pre, rfl, hpre⟩ := exists_numberText_of_readNumber? hread
      exact ⟨pre, rfl, .number hpre⟩
    · cases h

/-! ### Repetitions -/

/-- A sequence is read whole if each item is, and if the reader of items finds none in what follows.
The count of steps is never spent: every item has a character. -/
theorem readMany_append {α : Type} {step : List Char → Except Stop (Option (α × List Char))}
    {item : List Char → α → Prop} {follows : List Char → Prop}
    (reads : ∀ {cs a rest}, item cs a → follows rest → step (cs ++ rest) = .ok (some (a, rest)))
    (starts : ∀ {cs a} rest, item cs a → cs ≠ [] ∧ follows (cs ++ rest))
    {cs rest : List Char} {as : List α} (h : SequenceText item cs as) (ends : follows rest)
    (stop : step rest = .ok none) {count : Nat} (enough : cs.length ≤ count) :
    readMany step count (cs ++ rest) = .ok (as, rest) := by
  induction h generalizing count with
  | nil =>
    cases count with
    | zero => rfl
    | succ count =>
      rw [List.nil_append, readMany, stop]
      rfl
  | @cons cs more a as ha hmore ih =>
    have hne := (starts [] ha).1
    have hlength : 0 < cs.length := List.length_pos_iff.2 hne
    rw [List.length_append] at enough
    cases count with
    | zero => omega
    | succ count =>
      -- What follows the first text is the next one, or the rest.
      have hfollows : follows (more ++ rest) := by
        cases hmore with
        | nil => exact ends
        | cons hb _ =>
          rw [List.append_assoc]
          exact (starts _ hb).2
      have hmany : readMany step count (more ++ rest) = .ok (as, rest) := ih (by omega)
      rw [List.append_assoc, readMany, reads ha hfollows]
      show (readMany step count (more ++ rest) >>= fun x => pure (a :: x.1, x.2)) = _
      rw [hmany]
      rfl

/-- What is read item by item is a sequence of items. -/
theorem exists_sequenceText_of_readMany {α : Type}
    {step : List Char → Except Stop (Option (α × List Char))} {item : List Char → α → Prop}
    (sound : ∀ {cs a rest}, step cs = .ok (some (a, rest)) → ∃ pre, cs = pre ++ rest ∧ item pre a)
    {count : Nat} {cs rest : List Char} {as : List α}
    (h : readMany step count cs = .ok (as, rest)) :
    ∃ pre, cs = pre ++ rest ∧ SequenceText item pre as := by
  -- Why the repetition stops makes no difference to what it has read.
  induction count generalizing cs as with
  | zero =>
    cases h
    exact ⟨[], rfl, .nil⟩
  | succ count ih =>
    rw [readMany, bind_eq_ok_iff] at h
    obtain ⟨found, hstep, h⟩ := h
    cases found with
    | none =>
      cases h
      exact ⟨[], rfl, .nil⟩
    | some found =>
      obtain ⟨a, after⟩ := found
      simp only [bind_eq_ok_iff, Prod.exists] at h
      obtain ⟨as, after', hmany, h⟩ := h
      cases h
      obtain ⟨pre, rfl, hpre⟩ := sound hstep
      obtain ⟨pres, rfl, hpres⟩ := ih hmany
      exact ⟨pre ++ pres, by simp, .cons hpre hpres⟩

end JsonDoc.Path.Grammar
