import JsonDoc.Proofs.Json.Reading
import JsonDoc.Proofs.Value.PlainZeros
import JsonDoc.Json.Writer
import JsonDoc.Record.Datum

/-!
# `JsonDoc.Proofs.Json.Generic`: documents as generic JSON

There are two ways from a document to generic JSON: at once (`Value.toJson`), or by taking it apart
and encoding the parts (`Value.datum`, `Datum.toJson`). They tell the classes of numbers apart by
different questions, and come to the same (`toJson_datum`).

Written on one line, the generic JSON is the text that the document itself has there
(`write_compact`). Read back as a document it is `Value.plainNumbers`: null in place of each number
that is not finite, and zeros without signs (`ofJson_toJson`). Each of the three is a recursion over
the document, with the same statement for its items and for its members.
-/

set_option autoImplicit false

namespace JsonDoc

open Number

/-! ### Numbers -/

section
variable {x : Binary64}

/-- A number that is written as an integer is finite. -/
theorem isFinite_of_safeInteger? {n : Int} (h : safeInteger? x = some n) : x.isFinite = true := by
  obtain ⟨hn, -⟩ := safeInteger?_eq_some_iff.1 h
  cases x with
  | finite => rfl
  | _ => cases hn

/-- Generic JSON has an integer where the number is written as one. -/
theorem numeral?_of_some {n : Int} (h : safeInteger? x = some n) :
    numeral? x = some (.integer n) := by
  rw [numeral?, h]

/-- Any other number stays as it is, if it is finite. -/
theorem numeral?_of_none (h : safeInteger? x = none) :
    numeral? x = if x.isFinite then some (.float x) else none := by
  rw [numeral?, h]

/-- Zeros are among the integers that are written in digits. -/
theorem safeInteger?_zero (negative : Bool) {rank : Rank} (h : rank.val = 0) :
    safeInteger? (.finite negative rank) = some 0 := by
  obtain rfl : rank = ⟨0, by decide⟩ := Fin.ext h
  cases negative <;> decide +kernel

/-- A number that is not written as an integer is no zero. -/
theorem plainZero_of_safeInteger?_eq_none (h : safeInteger? x = none) : x.plainZero = x := by
  cases x with
  | finite negative rank =>
    refine Binary64.plainZero_of_ne_zero fun hzero => ?_
    rw [safeInteger?_zero negative hzero] at h
    cases h
  | _ => rfl

end

namespace Value

/-- What is left of a number in generic JSON: nothing if it is not finite, and no sign at a zero. -/
def plainNumber (x : Binary64) : Value := if x.isFinite then number x.plainZero else null

mutual

/-- The document with null in place of the numbers that are not finite, and zeros without signs. -/
def plainNumbers : Value → Value
  | number x => plainNumber x
  | array items => array (plainNumberItems items)
  | object members => object (plainNumberMembers members)
  | v => v

/-- The items with plain numbers. -/
def plainNumberItems : List Value → List Value
  | [] => []
  | item :: rest => plainNumbers item :: plainNumberItems rest

/-- The members, in the order given, with plain numbers. -/
def plainNumberMembers : List (String × Value) → List (String × Value)
  | [] => []
  | (key, item) :: rest => (key, plainNumbers item) :: plainNumberMembers rest

end

/-! ### Two encoders -/

/-- One encoder asks first whether a number is finite, the other whether it is a small integer. -/
theorem toJson_numberDatum (x : Binary64) : (numberDatum x).toJson = .ok (toJson (number x)) := by
  rw [numberDatum, toJson]
  cases hsafe : safeInteger? x with
  | some n =>
    rw [numeral?_of_some hsafe, isFinite_of_safeInteger? hsafe]
    rfl
  | none =>
    rw [numeral?_of_none hsafe]
    cases hfinite : x.isFinite with
    | false => rfl
    | true =>
      show (Datum.float x).toJson = _
      rw [Datum.toJson, hfinite]
      rfl

mutual

/-- A document that is taken apart and encoded is its generic JSON. -/
theorem toJson_datum : (v : Value) → v.datum.toJson = .ok v.toJson
  | null | bool _ | string _ => rfl
  | number x => toJson_numberDatum x
  | array items => by
    rw [datum, Datum.toJson, toJsonItems_datumItems items]
    rfl
  | object members => by
    rw [datum, Datum.toJson, toJsonEntries_datumMembers members]
    rfl

/-- The items are taken apart and put together again one after the other, without a failure. -/
theorem toJsonItems_datumItems :
    (items : List Value) → Datum.toJsonItems (datumItems items) = .ok (toJsonItems items)
  | [] => rfl
  | item :: rest => by
    rw [datumItems, Datum.toJsonItems, toJson_datum item, toJsonItems_datumItems rest]
    rfl

/-- The members of an object come back each under its key. -/
theorem toJsonEntries_datumMembers :
    (members : List (String × Value)) →
      Datum.toJsonEntries (datumMembers members) = .ok (toJsonMembers members)
  | [] => rfl
  | (key, item) :: rest => by
    rw [datumMembers, Datum.toJsonEntries, toJson_datum item, toJsonEntries_datumMembers rest]
    rfl

end

/-! ### The text -/

/-- Generic JSON has the keys of the object, in its order. -/
theorem keys_toJsonMembers (members : List (String × Value)) :
    Members.keys (toJsonMembers members) = Members.keys members := by
  induction members with
  | nil => rfl
  | cons m rest ih => exact congrArg (m.1 :: ·) ih

/-- Keys that differ leave nothing to be replaced. -/
theorem toJson_object {members : List (String × Value)} (hv : (object members).WellFormed) :
    (object members).toJson = .object (toJsonMembers members) := by
  rw [toJson, Members.ofPairs_eq_self]
  rw [keys_toJsonMembers]
  exact hv.1

/-- A number is written alike as part of a document and of generic JSON. -/
theorem numberText_eq_text (x : Binary64) : numberText x = (toJson (number x)).text := by
  rw [numberText, toJson]
  cases hsafe : safeInteger? x with
  | some n =>
    rw [numeral?_of_some hsafe, isFinite_of_safeInteger? hsafe]
    rfl
  | none =>
    rw [numeral?_of_none hsafe]
    cases x.isFinite <;> rfl

/-- Parts behind each other, the first after `separator` and the others after commas. -/
def parted (separator : String) : List String → String
  | [] => ""
  | part :: rest => separator ++ part ++ parted "," rest

/-- What is told part by part here is told by `intercalate` on the other side. -/
theorem parted_cons (separator part : String) (rest : List String) :
    parted separator (part :: rest) = separator ++ ",".intercalate (part :: rest) := by
  induction rest generalizing separator part with
  | nil => rw [parted, parted, String.append_empty, String.intercalate_singleton]
  | cons next rest ih =>
    rw [parted, ih, String.intercalate_cons_cons]
    simp only [String.append_assoc]

/-- Without a separator in front of the first part both agree. -/
theorem parted_empty (parts : List String) : parted "" parts = ",".intercalate parts := by
  cases parts with
  | nil => rfl
  | cons part rest => rw [parted_cons, String.empty_append]

mutual

/-- On one line a document has the text of its generic JSON. -/
theorem write_compact (level : Nat) (out : String) :
    (v : Value) → v.WellFormed → write .compact level out v = out ++ v.toJson.text
  | null, _ | bool _, _ | string _, _ | array [], _ | object [], _ => rfl
  | number x, _ => congrArg (out ++ ·) (numberText_eq_text x)
  | array (item :: rest), hv => by
    show writeItems .compact (level + 1) "" (out ++ "[") (item :: rest) ++ "]" = _
    rw [writeItems_compact (level + 1) "" (out ++ "[") (item :: rest) hv,
      parted_empty, toJson, Json.text]
    simp only [String.append_assoc]
  | object (m :: rest), hv => by
    show writeMembers .compact (level + 1) "" (out ++ "\x7b") (m :: rest) ++ "\x7d" = _
    rw [writeMembers_compact (level + 1) "" (out ++ "\x7b") (m :: rest) hv.2,
      parted_empty, toJson_object hv, Json.text]
    simp only [String.append_assoc]

/-- The items stand behind each other, each as generic JSON is written. -/
theorem writeItems_compact (level : Nat) (separator out : String) :
    (items : List Value) → WellFormedItems items →
      writeItems .compact level separator out items
        = out ++ parted separator (Json.itemTexts (toJsonItems items))
  | [], _ => String.append_empty.symm
  | item :: rest, hitems => by
    rw [writeItems, writeItems_compact level "," _ rest hitems.2,
      write_compact level _ item hitems.1, toJsonItems, Json.itemTexts, parted]
    simp only [Json.Layout.newLine, String.append_assoc]

/-- The compact text of members is that of their generic values, with the keys in front. -/
theorem writeMembers_compact (level : Nat) (separator out : String) :
    (members : List (String × Value)) → WellFormedMembers members →
      writeMembers .compact level separator out members
        = out ++ parted separator (Json.memberTexts (toJsonMembers members))
  | [], _ => String.append_empty.symm
  | (key, item) :: rest, hmembers => by
    rw [writeMembers, writeMembers_compact level "," _ rest hmembers.2,
      write_compact level _ item hmembers.1, toJsonMembers, Json.memberTexts, parted]
    simp only [Json.Layout.newLine, Json.Layout.colon, String.append_assoc]

end

/-! ### Back to a document -/

/-- A number comes back without the sign of a zero, and as null if it is not finite. -/
theorem ofJson_toJson_number (x : Binary64) : ofJson (toJson (number x)) = plainNumber x := by
  rw [toJson, plainNumber]
  cases hsafe : safeInteger? x with
  | some n =>
    obtain ⟨hn, -⟩ := safeInteger?_eq_some_iff.1 hsafe
    rw [numeral?_of_some hsafe, isFinite_of_safeInteger? hsafe, ← Binary64.ofInt_of_toInt? hn]
    rfl
  | none =>
    rw [numeral?_of_none hsafe, plainZero_of_safeInteger?_eq_none hsafe]
    cases x.isFinite <;> rfl

/-- Documents have the keys of generic JSON, in its order. -/
theorem keys_ofJsonMembers (members : List (String × Json)) :
    Members.keys (ofJsonMembers members) = Members.keys members := by
  induction members with
  | nil => rfl
  | cons m rest ih => exact congrArg (m.1 :: ·) ih

mutual

/-- The generic JSON of a document stands for the document with plain numbers. -/
theorem ofJson_toJson : (v : Value) → v.WellFormed → ofJson v.toJson = v.plainNumbers
  | null, _ | bool _, _ | string _, _ => rfl
  | number x, _ => ofJson_toJson_number x
  | array items, hv => congrArg array (ofJsonItems_toJsonItems items hv)
  | object members, hv => by
    have nodup : (Members.keys (ofJsonMembers (toJsonMembers members))).Nodup := by
      rw [keys_ofJsonMembers, keys_toJsonMembers]
      exact hv.1
    rw [toJson_object hv, ofJson, Members.ofPairs_eq_self nodup,
      ofJsonMembers_toJsonMembers members hv.2]
    rfl

/-- The items come back with plain numbers. -/
theorem ofJsonItems_toJsonItems :
    (items : List Value) → WellFormedItems items →
      ofJsonItems (toJsonItems items) = plainNumberItems items
  | [], _ => rfl
  | item :: rest, hitems => by
    rw [toJsonItems, ofJsonItems, ofJson_toJson item hitems.1,
      ofJsonItems_toJsonItems rest hitems.2]
    rfl

/-- The members come back each under its key, with plain numbers. -/
theorem ofJsonMembers_toJsonMembers :
    (members : List (String × Value)) → WellFormedMembers members →
      ofJsonMembers (toJsonMembers members) = plainNumberMembers members
  | [], _ => rfl
  | (key, item) :: rest, hmembers => by
    rw [toJsonMembers, ofJsonMembers, ofJson_toJson item hmembers.1,
      ofJsonMembers_toJsonMembers rest hmembers.2]
    rfl

end

/-- A document becomes the same generic JSON on both ways. That has the text which the document is
written with on one line, and it stands for the document with null in place of the numbers that are
not finite, with zeros without signs and with all members in their order. -/
theorem toJson_laws {v : Value} (hv : v.WellFormed) :
    v.datum.toJson = .ok v.toJson ∧
      (∀ options : WriteOptions, options.compact = true → options.sortKeys = false →
        options.htmlEscape = false → v.depth ≤ options.maxDepth →
        v.serialize options = .ok v.toJson.text) ∧
      ofJson v.toJson = v.plainNumbers := by
  refine ⟨toJson_datum v, ?_, ofJson_toJson v hv⟩
  intro options hcompact hsort hescape hdepth
  rw [serialize, if_neg (Nat.not_lt.2 hdepth), WriteOptions.layout, hcompact, hsort, hescape]
  show Except.ok (write .compact 0 "" v) = _
  rw [write_compact 0 "" v hv, String.empty_append]

/-- Numbers of every class, below keys that are not in order. -/
theorem toJson_laws_numbers :
    let v : Value := .object [("b", .array [.number .nan, .number (.infinite true)]),
      ("a", .number Binary64.zero.neg), ("c", .number (.ofRatio true 1 2))]
    v.datum.toJson = .ok v.toJson ∧
      v.serialize { maxDepth := 2 } = .ok "\x7b\"b\":[null,null],\"a\":0,\"c\":-0.5\x7d" ∧
      ofJson v.toJson = .object [("b", .array [.null, .null]), ("a", .number .zero),
        ("c", .number (.ofRatio true 1 2))] := by
  intro v
  have hv : v.WellFormed := by simp [v, Members.keys]
  obtain ⟨hencoders, htext, hback⟩ := toJson_laws hv
  have hserialize := htext { maxDepth := 2 } rfl rfl rfl (by decide)
  refine ⟨hencoders, hserialize.trans (by decide +kernel), hback.trans ?_⟩
  have hfinite : (Binary64.ofRatio true 1 2).isFinite = true := by decide +kernel
  have hplain : (Binary64.ofRatio true 1 2).plainZero = .ofRatio true 1 2 := by decide +kernel
  have hhalf : plainNumber (.ofRatio true 1 2) = .number (.ofRatio true 1 2) := by
    rw [plainNumber, if_pos hfinite, hplain]
  rw [← hhalf]
  rfl

end Value

end JsonDoc
