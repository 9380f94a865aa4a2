import JsonDoc.Proofs.Number.ReadBack
import JsonDoc.Proofs.Path.Reading

/-!
# `JsonDoc.Proofs.Path.Printing`: the normal text in the grammar

What the printer writes is a text of the grammar and stands for what was written, token by token
and then for conditions and segments.

* `quotedText_quotedText`: a quoted string stands for the string, whatever its characters are.
* `Literal.literalText_text`: so does the text of a literal, except for negative infinity, whose
  text is no literal.
* `Condition.termText_text`: the text of a condition is a term whose nesting is `printedNesting`,
  where every connective counts once for its parentheses and once more for its right side.
* `Piece.segmentText_listText`: a segment, or a descent and the segment after it, is a piece.
-/

set_option autoImplicit false

namespace JsonDoc

open Number

/-- The literals of a condition, from left to right. -/
def Condition.literals : Condition → List Literal
  | compare _ _ literal => [literal]
  | present _ => []
  | and left right => left.literals ++ right.literals
  | or left right => left.literals ++ right.literals

/-- How many parentheses and connectives the text of a condition nests: a combined condition has
its parentheses, and its right side stands behind its connective as well. -/
def Condition.printedNesting : Condition → Nat
  | compare .. => 0
  | present _ => 0
  | and left right => 1 + max left.printedNesting (1 + right.printedNesting)
  | or left right => 1 + max left.printedNesting (1 + right.printedNesting)

/-- All names in the fields of a condition can stand after a point. -/
def Condition.PlainNames (condition : Condition) : Prop :=
  ∀ field ∈ condition.fields, ∀ name ∈ field, Path.isName name.toList = true

/-- No literal of a condition is negative infinity, the one that has no text. -/
def Condition.PlainLiterals (condition : Condition) : Prop :=
  ∀ literal ∈ condition.literals, literal ≠ .number (.infinite true)

/-- The names of a joined condition are those of both sides. -/
theorem Condition.plainNames_and {left right : Condition} :
    (Condition.and left right).PlainNames ↔ left.PlainNames ∧ right.PlainNames :=
  List.forall_mem_append

/-- The names on both sides of an `||` are all its names. -/
theorem Condition.plainNames_or {left right : Condition} :
    (Condition.or left right).PlainNames ↔ left.PlainNames ∧ right.PlainNames :=
  List.forall_mem_append

/-- The literals of a joined condition are those of both sides. -/
theorem Condition.plainLiterals_and {left right : Condition} :
    (Condition.and left right).PlainLiterals ↔ left.PlainLiterals ∧ right.PlainLiterals :=
  List.forall_mem_append

/-- The literals on both sides of an `||` are all its literals. -/
theorem Condition.plainLiterals_or {left right : Condition} :
    (Condition.or left right).PlainLiterals ↔ left.PlainLiterals ∧ right.PlainLiterals :=
  List.forall_mem_append

/-- The segment can be written at all: its index has 64 bits, and the fields of its condition
have names that can stand after a point. -/
def Segment.Expressible : Segment → Prop
  | index i => -(2 ^ 63 : Int) ≤ i ∧ i < 2 ^ 63
  | filter condition => condition.PlainNames
  | _ => True

/-- The text of the segment can be read: the literals of its condition have texts, and the
condition is not nested too deeply with the parentheses of its text counted. -/
def Segment.Rereadable : Segment → Prop
  | filter condition =>
    condition.PlainLiterals ∧ condition.printedNesting ≤ Path.maxConditionHeight
  | _ => True

namespace Path.Grammar

/-! ### Names and integers -/

/-- A name that needs no quotes is a name in the grammar as it stands. -/
theorem nameText_toList {name : String} (h : isName name.toList = true) :
    NameText name.toList name :=
  ⟨h, String.ofList_toList.symm⟩

/-- An integer of 64 bits is written as it is read. -/
theorem integerText_integerText {i : Int} (low : -(2 ^ 63 : Int) ≤ i) (high : i < 2 ^ 63) :
    IntegerText (integerText i) i := by
  have hds := digits_toDigits i.natAbs
  have hvalue := natOfDigits_toDigits i.natAbs
  -- The two signs have bounds of their own: the least integer has no positive counterpart.
  rw [integerText]
  by_cases hneg : i < 0
  · rw [if_pos hneg]
    have hi : i = -(natOfDigits (Nat.toDigits 10 i.natAbs) : Int) := by omega
    have hle : (natOfDigits (Nat.toDigits 10 i.natAbs) : Int) ≤ 2 ^ 63 := by omega
    have h := IntegerText.minus hds hle
    rwa [← hi] at h
  · rw [if_neg hneg, List.nil_append]
    have hi : i = (natOfDigits (Nat.toDigits 10 i.natAbs) : Int) := by omega
    have hlt : (natOfDigits (Nat.toDigits 10 i.natAbs) : Int) < 2 ^ 63 := by omega
    have h := IntegerText.unsigned hds hlt
    rwa [← hi] at h

/-! ### Quoted strings -/

/-- Hexadecimal digits are read as they are written. -/
theorem hexDigit?_digitChar : ∀ k < 16, hexDigit? (Nat.digitChar k) = some k := by decide

/-- A code point below 256 is written with two zeros and its two digits. -/
theorem hexFour_eq {n : Nat} (h : n < 256) :
    hexFour n = ['0', '0', Nat.digitChar (n / 16), Nat.digitChar (n % 16)] := by
  have hhigh : n / 16 < 16 := by omega
  have hlow : n % 16 < 16 := by omega
  -- Below 16 there is one digit only, and the other one is a third zero.
  have hdigits : Nat.toDigits 16 n
      = if n < 16 then [Nat.digitChar (n % 16)]
        else [Nat.digitChar (n / 16), Nat.digitChar (n % 16)] := by
    by_cases hsmall : n < 16
    · rw [if_pos hsmall, Nat.toDigits_of_lt_base hsmall, Nat.mod_eq_of_lt hsmall]
    · have hsplit := Nat.toDigits_append_toDigits (by decide : 1 < 16)
        (by omega : 0 < n / 16) hlow
      rw [Nat.toDigits_of_lt_base hhigh, Nat.toDigits_of_lt_base hlow, Nat.div_add_mod] at hsplit
      rw [if_neg hsmall, ← hsplit]
      rfl
  rw [hexFour, hdigits]
  by_cases hsmall : n < 16
  · have hzero : n / 16 = 0 := by omega
    rw [if_pos hsmall, hzero]
    rfl
  · rw [if_neg hsmall]
    rfl

/-- Four digits are enough for the characters that are escaped by their code. -/
theorem codeText_hexFour {e : Char} (h : e.toNat < 256) :
    ∃ a b c d, hexFour e.toNat = [a, b, c, d] ∧ CodeText a b c d e := by
  have hhigh := hexDigit?_digitChar (e.toNat / 16) (by omega)
  have hlow := hexDigit?_digitChar (e.toNat % 16) (by omega)
  refine ⟨_, _, _, _, hexFour_eq h, 0, 0, _, _, rfl, rfl, hhigh, hlow, ?_⟩
  omega

/-- A character between single quotes stands for itself. -/
theorem contentText_quotedChar (c : Char) {cs s : List Char} (h : ContentText '\'' cs s) :
    ContentText '\'' (quotedChar c ++ cs) (c :: s) := by
  -- Five characters have a short escape, and a control character has its code.
  rw [quotedChar.eq_def]
  split
  · exact .escape (by decide) h
  · exact .escape (by decide) h
  · exact .escape (by decide) h
  · exact .escape (by decide) h
  · exact .escape (by decide) h
  · next hquote hback _ _ _ =>
    by_cases hcontrol : isControl c = true
    · rw [if_pos hcontrol]
      have hlt : c.toNat < 256 := by
        simp only [isControl, Bool.or_eq_true, Bool.and_eq_true, decide_eq_true_eq] at hcontrol
        omega
      obtain ⟨a, b, d, e, hfour, hcode⟩ := codeText_hexFour hlt
      rw [hfour]
      exact .code hcode h
    · rw [if_neg hcontrol]
      exact .plain hquote hback h

/-- A quoted string stands for the string that was quoted. -/
theorem quotedText_quotedText (s : String) : QuotedText (quotedText s) s := by
  have hcontent : ContentText '\'' (s.toList.flatMap quotedChar) s.toList := by
    induction s.toList with
    | nil => exact .nil
    | cons c cs ih =>
      rw [List.flatMap_cons]
      exact contentText_quotedChar c ih
  have h := QuotedText.intro (.inr rfl) hcontent
  rwa [String.ofList_toList] at h

/-! ### Literals and tests -/

/-- The text of a literal stands for it. Negative infinity is written with a sign that no name of a
number has. -/
theorem Literal.literalText_text {literal : Literal} (h : literal ≠ .number (.infinite true)) :
    LiteralText literal.text literal := by
  cases literal with
  | null => exact .null
  | bool b =>
    cases b with
    | false => exact .boolFalse
    | true => exact .boolTrue
  | string s => exact .string (quotedText_quotedText s)
  | number x =>
    cases x with
    | nan => exact .number (.nan (by decide))
    | infinite negative =>
      cases negative with
      | false => exact .number (.infinity (by decide))
      | true => exact absurd rfl h
    | finite negative rank =>
      -- The plain text of a finite number is a numeral that rounds to it.
      obtain ⟨d, hd, hvalue⟩ := Binary64.exists_numeralText_text negative rank
      have hnumber : NumberText _ d.toBinary64 := .numeral hd
      rw [hvalue] at hnumber
      exact .number hnumber

/-- A field whose names need no quotes stands for itself. -/
theorem Field.fieldText_text {field : Field} (h : ∀ name ∈ field, isName name.toList = true) :
    FieldText (field.flatMap fun name => '.' :: name.toList) field := by
  induction field with
  | nil => exact .nil
  | cons name field ih =>
    rw [List.flatMap_cons]
    refine .cons (.intro (nameText_toList (h name List.mem_cons_self))) (ih ?_)
    exact fun other mem => h other (List.mem_cons_of_mem _ mem)

/-- The printer puts single blanks around connectives and comparisons. -/
theorem blanks_space : Blanks [' '] := by
  intro c hc
  rw [List.mem_singleton.1 hc]
  decide

/-- The text of a condition is a term. -/
theorem Condition.termText_text {condition : Condition} (names : condition.PlainNames)
    (literals : condition.PlainLiterals) :
    TermText condition.printedNesting condition.text condition := by
  induction condition with
  | present field =>
    exact .test (.present (Field.fieldText_text (names field List.mem_cons_self)))
  | compare field op literal =>
    have hfield := Field.fieldText_text (names field List.mem_cons_self)
    have hliteral := Literal.literalText_text (literals literal List.mem_cons_self)
    have h : TestText _ (.compare field op literal) :=
      .compare hfield blanks_space blanks_space hliteral
    have htext : (Condition.compare field op literal).text
        = '@' :: ((field.flatMap fun name => '.' :: name.toList) ++ [' '] ++ op.text ++ [' '] ++
          literal.text) := by
      simp [Condition.text, Field.text]
    rw [htext]
    exact .test h
  | and left right ihl ihr =>
    obtain ⟨namesLeft, namesRight⟩ := Condition.plainNames_and.1 names
    obtain ⟨literalsLeft, literalsRight⟩ := Condition.plainLiterals_and.1 literals
    have hl := ihl namesLeft literalsLeft
    have hr := ihr namesRight literalsRight
    -- The left side is a term on its own, so this connective is the only one of its chain.
    have h := TermText.group blanks_nil
      (.conjunction (.and (.term hl) blanks_space blanks_space hr)) blanks_nil
    have hnesting : max left.printedNesting (0 + 1 + right.printedNesting) + 1
        = (Condition.and left right).printedNesting := by
      rw [Condition.printedNesting]
      omega
    rw [hnesting] at h
    simpa [Condition.text] using h
  | or left right ihl ihr =>
    obtain ⟨namesLeft, namesRight⟩ := Condition.plainNames_or.1 names
    obtain ⟨literalsLeft, literalsRight⟩ := Condition.plainLiterals_or.1 literals
    have hl := ihl namesLeft literalsLeft
    have hr := ihr namesRight literalsRight
    have h := TermText.group blanks_nil
      (.or (.conjunction (.term hl)) blanks_space blanks_space (.term hr)) blanks_nil
    have hnesting : max left.printedNesting (0 + 1 + right.printedNesting) + 1
        = (Condition.or left right).printedNesting := by
      rw [Condition.printedNesting]
      omega
    rw [hnesting] at h
    simpa [Condition.text] using h

/-! ### Segments -/

/-- A segment, or a descent and the segment after it. -/
inductive Piece : List Segment → Prop where
  | plain {segment : Segment} : segment ≠ .descent → segment.Expressible → Piece [segment]
  | descent {segment : Segment} : segment ≠ .descent → segment.Expressible →
      Piece [.descent, segment]

/-- A segment that follows no descent is written with its own point or bracket. -/
theorem Segment.textAfter_false (segment : Segment) : segment.textAfter false = segment.text := by
  cases segment <;> rfl

/-- The next piece is written as if it stood alone, since no piece ends in a descent. -/
theorem Piece.listText_append {piece : List Segment} (h : Piece piece) (rest : List Segment) :
    Segment.listText false (piece ++ rest)
      = Segment.listText false piece ++ Segment.listText false rest := by
  cases h with
  | plain hs _ => simp [Segment.listText, hs]
  | descent hs _ => simp [Segment.listText, hs]

/-- A segment that is not written as a name stands in brackets. -/
theorem Segment.bracketText_text {segment : Segment} (hdescent : segment ≠ .descent)
    (hname : ∀ name, segment = .property name → isName name.toList = false)
    (hexpressible : segment.Expressible) (hrereadable : segment.Rereadable) :
    BracketText segment.text segment := by
  cases segment with
  | descent => exact absurd rfl hdescent
  | wildcard => exact .intro blanks_nil .wildcard blanks_nil
  | property name =>
    -- A name that must be quoted; the others are written after a point.
    have h := BracketText.intro blanks_nil (.property (quotedText_quotedText name)) blanks_nil
    simpa [Segment.text, hname name rfl] using h
  | index i =>
    have hi := integerText_integerText hexpressible.1 hexpressible.2
    have h := BracketText.intro blanks_nil (.index hi) blanks_nil
    simpa [Segment.text] using h
  | filter condition =>
    have hcondition := Condition.termText_text hexpressible hrereadable.1
    have hfilter := SelectorText.filter blanks_nil (.conjunction (.term hcondition))
      hrereadable.2 blanks_nil
    have h := BracketText.intro blanks_nil hfilter blanks_nil
    simpa [Segment.text] using h

/-- A segment, or a descent and the segment after it, is written as one piece of the grammar. -/
theorem Piece.segmentText_listText {piece : List Segment} (h : Piece piece)
    (hrereadable : ∀ segment ∈ piece, segment.Rereadable) :
    SegmentText (Segment.listText false piece) piece := by
  cases h with
  | @plain segment hdescent hexpressible =>
    have hsegment := hrereadable segment List.mem_cons_self
    have htext : Segment.listText false [segment] = segment.text := by
      simp [Segment.listText, Segment.textAfter_false]
    rw [htext]
    -- Names that need no quotes go after a point, all else goes in brackets.
    by_cases hname : ∃ name, segment = .property name ∧ isName name.toList = true
    · obtain ⟨name, rfl, hname⟩ := hname
      rw [Segment.text, if_pos hname]
      exact .member (.property (nameText_toList hname))
    · refine .bracket (Segment.bracketText_text hdescent ?_ hexpressible hsegment)
      rintro name rfl
      simpa using hname
  | @descent segment hdescent hexpressible =>
    have hsegment := hrereadable segment (by simp)
    by_cases hname : ∃ name, segment = .property name ∧ isName name.toList = true
    · obtain ⟨name, rfl, hname⟩ := hname
      have htext : Segment.listText false [.descent, .property name]
          = '.' :: '.' :: name.toList := by
        simp [Segment.listText, Segment.textAfter, Segment.text, hname]
      rw [htext]
      exact .descendMember (.property (nameText_toList hname))
    · have hname' : ∀ name, segment = .property name → isName name.toList = false := by
        rintro name rfl
        simpa using hname
      have htext : Segment.listText false [.descent, segment] = '.' :: '.' :: segment.text := by
        cases segment with
        | property name => simp [Segment.listText, Segment.textAfter, Segment.text, hname' name rfl]
        | _ => simp [Segment.listText, Segment.textAfter, Segment.text]
      rw [htext]
      exact .descendBracket (Segment.bracketText_text hdescent hname' hexpressible hsegment)

/-- The normal text of pieces is a sequence of pieces. -/
theorem sequenceText_listText {pieces : List (List Segment)} (h : ∀ piece ∈ pieces, Piece piece)
    (hrereadable : ∀ segment ∈ pieces.flatten, segment.Rereadable) :
    SequenceText SegmentText (Segment.listText false pieces.flatten) pieces := by
  induction pieces with
  | nil => exact .nil
  | cons piece pieces ih =>
    rw [List.flatten_cons] at hrereadable ⊢
    rw [(h piece List.mem_cons_self).listText_append]
    refine .cons ((h piece List.mem_cons_self).segmentText_listText ?_) (ih ?_ ?_)
    · exact fun segment mem => hrereadable segment (List.mem_append_left _ mem)
    · exact fun other mem => h other (List.mem_cons_of_mem _ mem)
    · exact fun segment mem => hrereadable segment (List.mem_append_right _ mem)

/-- The normal text of pieces whose segments can be read back is a path of those segments. -/
theorem pathText_textOf {pieces : List (List Segment)} (h : ∀ piece ∈ pieces, Piece piece)
    (hrereadable : ∀ segment ∈ pieces.flatten, segment.Rereadable) :
    PathText (textOf pieces.flatten).toList pieces.flatten := by
  rw [textOf, String.toList_ofList]
  exact .rooted (sequenceText_listText h hrereadable)

end Path.Grammar

end JsonDoc
