import JsonDoc.Json.Writer
import JsonDoc.Proofs.Path.Printing
import Mathlib.Data.Bool.AllAny

/-!
# `JsonDoc.Proofs.Json.Grammar`: the texts that stand for documents

The grammar of JSON texts as relations between a text and the document it stands for, with white
space of any kind between the parts. It has all the forms in which documents are written, and no
more: numbers are integers, and an escape gives one code point.

* `ValueText` is the text of a value. Its index bounds the nesting: a container of depth `n + 1`
  holds values of depth `n`.
* `PartsText` are parts between commas, each with white space around it, and `ListText` is what
  stands between two brackets: parts, or nothing.
* `MemberText`, `ScalarText`, `StringText`, `ContentText` and `CharText` are the smaller parts.

Escaping the characters that HTML gives a meaning is a pass over the characters of a finished text,
which knows nothing of this structure. `ValueText.escapeHtml` says that the text stands for the
same document afterwards. Such a character can only stand for itself in the content of a string;
structure, numbers and escapes have none.
-/

set_option autoImplicit false

namespace JsonDoc.Json.Grammar

open Number
open Path.Grammar (CodeText)

/-- White space only, or nothing. -/
def Spaces (cs : List Char) : Prop := ∀ c ∈ cs, c = ' ' ∨ c = '\n' ∨ c = '\r' ∨ c = '\t'

/-! ### Strings -/

/-- The letters of the short escapes, and the characters they stand for. -/
def escapes : List (Char × Char) := [
  ('"', '"'), ('\\', '\\'), ('b', '\x08'), ('f', '\x0c'), ('n', '\n'), ('r', '\r'), ('t', '\t')
]

/-- How a character may stand in a string. -/
inductive CharText : List Char → Char → Prop where
  | plain {c : Char} : 0x20 ≤ c.toNat → c ≠ '"' → c ≠ '\\' → CharText [c] c
  | escape {c d : Char} : (c, d) ∈ escapes → CharText ['\\', c] d
  | code {a b c d e : Char} : CodeText a b c d e → CharText ['\\', 'u', a, b, c, d] e

/-- What stands between the quotes of a string, and the characters it stands for. -/
inductive ContentText : List Char → List Char → Prop where
  | nil : ContentText [] []
  | cons {cs more s : List Char} {c : Char} : CharText cs c → ContentText more s →
      ContentText (cs ++ more) (c :: s)

/-- A string between its quotes. -/
inductive StringText : List Char → String → Prop where
  | intro {content s : List Char} : ContentText content s →
      StringText ('"' :: (content ++ ['"'])) (String.ofList s)

/-! ### Values -/

/-- A value that is not a container. -/
inductive ScalarText : List Char → Value → Prop where
  | null : ScalarText ['n', 'u', 'l', 'l'] .null
  | boolTrue : ScalarText ['t', 'r', 'u', 'e'] (.bool true)
  | boolFalse : ScalarText ['f', 'a', 'l', 's', 'e'] (.bool false)
  | number {n : Int} : n.natAbs < 2 ^ 63 → ScalarText (integerText n) (.number (.ofInt n))
  | string {cs : List Char} {s : String} : StringText cs s → ScalarText cs (.string s)

section
variable {α : Type}

/-- Parts of one kind between commas. -/
inductive PartsText (part : List Char → α → Prop) : List Char → List α → Prop where
  | single {before cs after : List Char} {a : α} : Spaces before → part cs a → Spaces after →
      PartsText part (before ++ cs ++ after) [a]
  | cons {before cs after more : List Char} {a : α} {as : List α} : Spaces before → part cs a →
      Spaces after → PartsText part more as →
      PartsText part (before ++ cs ++ after ++ ',' :: more) (a :: as)

/-- What stands between two brackets. -/
inductive ListText (part : List Char → α → Prop) : List Char → List α → Prop where
  | empty : ListText part [] []
  | parts {cs : List Char} {as : List α} : PartsText part cs as → ListText part cs as

/-- A member: a key, a colon and a value. -/
inductive MemberText (value : List Char → α → Prop) : List Char → String × α → Prop where
  | intro {name before after cs : List Char} {key : String} {a : α} : StringText name key →
      Spaces before → Spaces after → value cs a →
      MemberText value (name ++ before ++ ':' :: (after ++ cs)) (key, a)

end

/-- A value in which containers are nested at most as deep as the index says. -/
def ValueText : (depth : Nat) → List Char → Value → Prop
  | 0, cs, v => ScalarText cs v
  | depth + 1, cs, v =>
    ScalarText cs v ∨
      (∃ inner items, cs = '[' :: (inner ++ [']']) ∧ v = .array items ∧
        ListText (ValueText depth) inner items) ∨
      ∃ inner members, cs = '\x7b' :: (inner ++ ['\x7d']) ∧ v = .object members ∧
        (Members.keys members).Nodup ∧ ListText (MemberText (ValueText depth)) inner members

/-! ### Escapes for HTML -/

/-- The characters that HTML and scripts give a meaning. -/
def marks : List Char := ['<', '>', '&', '\u2028', '\u2029']

/-- Any other character stays as it is. -/
theorem htmlChar_eq_self {c : Char} (h : c ∉ marks) : htmlChar c = [c] := by
  simp only [marks, List.mem_cons, List.not_mem_nil, or_false, not_or] at h
  obtain ⟨hless, hgreater, hand, hline, hparagraph⟩ := h
  rw [htmlChar.eq_def]
  split <;> first | contradiction | rfl

/-- The pass leaves characters alone of which none is marked. -/
theorem flatMap_htmlChar_eq_self {cs : List Char} (h : ∀ c ∈ cs, c ∉ marks) :
    cs.flatMap htmlChar = cs := by
  induction cs with
  | nil => rfl
  | cons c cs ih =>
    obtain ⟨hc, hcs⟩ := List.forall_mem_cons.1 h
    rw [List.flatMap_cons, htmlChar_eq_self hc, ih hcs, List.singleton_append]

/-- White space stays as it is. -/
theorem Spaces.escapeHtml {cs : List Char} (h : Spaces cs) : cs.flatMap htmlChar = cs := by
  refine flatMap_htmlChar_eq_self fun c mem => ?_
  obtain rfl | rfl | rfl | rfl := h c mem <;> decide

/-- A marked character is written with its code. -/
theorem charText_htmlChar {c : Char} (h : CharText [c] c) : CharText (htmlChar c) c := by
  by_cases hc : c ∈ marks
  · have hcode {a b d e : Char} (i j k l : Nat) (ha : Path.hexDigit? a = some i)
        (hb : Path.hexDigit? b = some j) (hd : Path.hexDigit? d = some k)
        (he : Path.hexDigit? e = some l) (hvalue : c.toNat = 4096 * i + 256 * j + 16 * k + l) :
        CharText ['\\', 'u', a, b, d, e] c := .code ⟨i, j, k, l, ha, hb, hd, he, hvalue⟩
    simp only [marks, List.mem_cons, List.not_mem_nil, or_false] at hc
    obtain rfl | rfl | rfl | rfl | rfl := hc
    · exact hcode 0 0 3 12 rfl rfl rfl rfl rfl
    · exact hcode 0 0 3 14 rfl rfl rfl rfl rfl
    · exact hcode 0 0 2 6 rfl rfl rfl rfl rfl
    · exact hcode 2 0 2 8 rfl rfl rfl rfl rfl
    · exact hcode 2 0 2 9 rfl rfl rfl rfl rfl
  · rwa [htmlChar_eq_self hc]

/-- A digit of a code is none of the marks. -/
theorem not_mem_marks_of_hexDigit? {c : Char} {k : Nat} (h : Path.hexDigit? c = some k) :
    c ∉ marks := by
  intro mem
  have hnone : ∀ d ∈ marks, Path.hexDigit? d = none := List.all_iff_forall_prop.1 (by decide)
  rw [hnone c mem] at h
  cases h

/-- The pass does not split an escape, and it makes one of a marked character. -/
theorem CharText.escapeHtml {cs : List Char} {c : Char} (h : CharText cs c) :
    CharText (cs.flatMap htmlChar) c := by
  cases h with
  | plain hspace hquote hback =>
    rw [List.flatMap_singleton]
    exact charText_htmlChar (.plain hspace hquote hback)
  | @escape l _ hl =>
    have hplain : ∀ pair ∈ escapes, pair.1 ∉ marks := List.all_iff_forall_prop.1 (by decide)
    rw [flatMap_htmlChar_eq_self]
    · exact .escape hl
    · simp only [List.forall_mem_cons]
      exact ⟨by decide, hplain _ hl, nofun⟩
  | code hcode =>
    rw [flatMap_htmlChar_eq_self]
    · exact .code hcode
    · obtain ⟨i, j, k, l, ha, hb, hd, he, -⟩ := hcode
      simp only [List.forall_mem_cons]
      exact ⟨by decide, by decide, not_mem_marks_of_hexDigit? ha, not_mem_marks_of_hexDigit? hb,
        not_mem_marks_of_hexDigit? hd, not_mem_marks_of_hexDigit? he, nofun⟩

/-- The characters between the quotes stand for the same text once the marks among them are
escaped. -/
theorem ContentText.escapeHtml {cs s : List Char} (h : ContentText cs s) :
    ContentText (cs.flatMap htmlChar) s := by
  induction h with
  | nil => exact .nil
  | cons hc _ ih =>
    rw [List.flatMap_append]
    exact .cons hc.escapeHtml ih

/-- A string with its marks escaped is the same string: the quotes are no marks. -/
theorem StringText.escapeHtml {cs : List Char} {s : String} (h : StringText cs s) :
    StringText (cs.flatMap htmlChar) s := by
  cases h with
  | intro hcontent =>
    rw [List.flatMap_cons, List.flatMap_append]
    exact .intro hcontent.escapeHtml

/-- A scalar other than a string has no marks, and a string keeps its meaning. -/
theorem ScalarText.escapeHtml {cs : List Char} {v : Value} (h : ScalarText cs v) :
    ScalarText (cs.flatMap htmlChar) v := by
  cases h with
  | null => exact .null
  | boolTrue => exact .boolTrue
  | boolFalse => exact .boolFalse
  | @number n hn =>
    -- No digit and no sign is among the marks, so the text of a number stays.
    rw [flatMap_htmlChar_eq_self]
    · exact .number hn
    · intro c mem hc
      have hmarks : ∀ d ∈ marks, d.isDigit = false ∧ d ≠ '-' :=
        List.all_iff_forall_prop.1 (by decide)
      obtain ⟨hdigit, hminus⟩ := hmarks c hc
      obtain hsign | hdigits := List.mem_append.1 mem
      · split at hsign
        · exact hminus (List.mem_singleton.1 hsign)
        · cases hsign
      · rw [(digits_toDigits n.natAbs).2 c hdigits] at hdigit
        cases hdigit
  | string hs => exact .string hs.escapeHtml

section
variable {α : Type} {part part' : List Char → α → Prop} {cs : List Char}
  (hpart : ∀ cs a, part cs a → part' (cs.flatMap htmlChar) a)
include hpart

/-- Parts between commas keep their meaning if each part does. -/
theorem PartsText.escapeHtml {as : List α} (h : PartsText part cs as) :
    PartsText part' (cs.flatMap htmlChar) as := by
  induction h with
  | single hbefore ha hafter =>
    rw [List.flatMap_append, List.flatMap_append, hbefore.escapeHtml, hafter.escapeHtml]
    exact .single hbefore (hpart _ _ ha) hafter
  | cons hbefore ha hafter _ ih =>
    rw [List.flatMap_append, List.flatMap_append, List.flatMap_append, hbefore.escapeHtml,
      hafter.escapeHtml, List.flatMap_cons]
    exact .cons hbefore (hpart _ _ ha) hafter ih

/-- What stands between brackets keeps its meaning if each part does. -/
theorem ListText.escapeHtml {as : List α} (h : ListText part cs as) :
    ListText part' (cs.flatMap htmlChar) as := by
  cases h with
  | empty => exact .empty
  | parts h => exact .parts (h.escapeHtml hpart)

/-- A member keeps its meaning if its value does; its key is a string. -/
theorem MemberText.escapeHtml {m : String × α} (h : MemberText part cs m) :
    MemberText part' (cs.flatMap htmlChar) m := by
  cases h with
  | intro hname hbefore hafter hvalue =>
    have hcolon : htmlChar ':' = [':'] := rfl
    rw [List.flatMap_append, List.flatMap_append, hbefore.escapeHtml, List.flatMap_cons, hcolon,
      List.singleton_append, List.flatMap_append, hafter.escapeHtml]
    exact .intro hname.escapeHtml hbefore hafter (hpart _ _ hvalue)

end

/-- The pass over a finished text leaves a text of the same document. -/
theorem ValueText.escapeHtml {depth : Nat} {cs : List Char} {v : Value}
    (h : ValueText depth cs v) : ValueText depth (cs.flatMap htmlChar) v := by
  induction depth generalizing cs v with
  | zero => exact ScalarText.escapeHtml h
  | succ depth ih =>
    obtain h | ⟨inner, items, rfl, rfl, hitems⟩ | ⟨inner, members, rfl, rfl, nodup, hmembers⟩ := h
    · exact .inl h.escapeHtml
    · refine .inr (.inl ⟨inner.flatMap htmlChar, items, ?_, rfl, ?_⟩)
      · rw [List.flatMap_cons, List.flatMap_append]
        rfl
      · exact hitems.escapeHtml fun _ _ => ih
    · refine .inr (.inr ⟨inner.flatMap htmlChar, members, ?_, rfl, nodup, ?_⟩)
      · rw [List.flatMap_cons, List.flatMap_append]
        rfl
      · exact hmembers.escapeHtml fun _ _ hmember => hmember.escapeHtml fun _ _ => ih

end JsonDoc.Json.Grammar
