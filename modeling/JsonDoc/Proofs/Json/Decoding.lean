import JsonDoc.Proofs.Json.Builders
import JsonDoc.Proofs.Json.Built
import JsonDoc.Proofs.Json.Generic
import JsonDoc.Record.Decode

/-!
# `JsonDoc.Proofs.Json.Decoding`: two ways from JSON to a document

A document is made of a text while that is read, or of generic JSON that was read before. The first
way has `Value.builder` put the parts together and takes the depth from the brackets as they come;
the second goes down a finished tree. On both ways the document is `Value.ofJson` of the generic
JSON, or there is none because containers are nested too deeply (`Value.decodes_as_ofJson`). What
a repeated key replaces is gone from the generic JSON, and counts in the text.
-/

set_option autoImplicit false

namespace JsonDoc

/-! ### While the text is read -/

namespace Members

variable {α β : Type}

/-- A change of the values leaves the keys. -/
theorem keys_map (f : α → β) (members : Members α) :
    keys (members.map (Prod.map id f)) = keys members := by
  simp [keys]

/-- Putting an image in among images gives the images of what putting in gives: whether a key is
present does not depend on the values. -/
theorem put_map (f : α → β) (members : Members α) (key : String) (value : α) :
    put (members.map (Prod.map id f)) key (f value)
      = (put members key value).map (Prod.map id f) := by
  have hhas : has (members.map (Prod.map id f)) key = has members key := by
    rw [Bool.eq_iff_iff, has_iff_mem_keys, has_iff_mem_keys, keys_map]
  rw [put, put, hhas]
  split
  · rw [List.map_map, List.map_map]
    refine List.map_congr_left fun m _ => ?_
    simp only [Function.comp_apply, Prod.map_fst, id_eq]
    split <;> rfl
  · rw [List.map_append]
    rfl

/-- Putting in many pairs, one after the other, commutes with a map of the values. -/
theorem putAll_map (f : α → β) (members : Members α) (pairs : List (String × α)) :
    putAll (members.map (Prod.map id f)) (pairs.map (Prod.map id f))
      = (putAll members pairs).map (Prod.map id f) := by
  induction pairs generalizing members with
  | nil => rfl
  | cons pair pairs ih =>
    refine Eq.trans ?_ (ih (put members pair.1 pair.2))
    rw [← put_map]
    rfl

/-- The values of an object may be changed before or after it is made of its pairs. -/
theorem ofPairs_map (f : α → β) (pairs : List (String × α)) :
    ofPairs (pairs.map (Prod.map id f)) = (ofPairs pairs).map (Prod.map id f) :=
  putAll_map f [] pairs

end Members

namespace Value

/-- The recursion over the items is a map. -/
theorem ofJsonItems_eq_map (items : List Json) : ofJsonItems items = items.map ofJson := by
  induction items with
  | nil => rfl
  | cons item rest ih => exact congrArg (ofJson item :: ·) ih

/-- The recursion over the members is a map on their values. -/
theorem ofJsonMembers_eq_map (members : List (String × Json)) :
    ofJsonMembers members = members.map (Prod.map id ofJson) := by
  induction members with
  | nil => rfl
  | cons m rest ih => exact congrArg ((m.1, ofJson m.2) :: ·) ih

/-- A document is built as the document of what is built as generic JSON. -/
theorem maps_ofJson : Json.builder.Maps Value.builder ofJson where
  null := rfl
  bool _ := rfl
  number _ := rfl
  string _ := rfl
  array items := congrArg array (ofJsonItems_eq_map items)
  object pairs := by
    have nodup : (Members.keys (ofJsonMembers (Members.ofPairs pairs))).Nodup := by
      rw [keys_ofJsonMembers]
      exact Members.nodup_keys_putAll List.nodup_nil
    show object _ = object _
    rw [Members.ofPairs_eq_self nodup, ofJsonMembers_eq_map, Members.ofPairs_map]

end Value

/-! ### From generic JSON -/

namespace Json

mutual

/-- How deep arrays and objects are nested. -/
def depth : Json → Nat
  | array items => itemsDepth items + 1
  | object members => membersDepth members + 1
  | _ => 0

/-- The greatest depth among the items. -/
def itemsDepth : List Json → Nat
  | [] => 0
  | item :: rest => max item.depth (itemsDepth rest)

/-- The greatest depth among the members. -/
def membersDepth : List (String × Json) → Nat
  | [] => 0
  | (_, item) :: rest => max item.depth (membersDepth rest)

end

section
variable {α β γ : Type}

/-- The result, if there is room for containers nested as deep as it needs. -/
def fitting (limit room depth : Nat) (a : α) : Except Record.Fault α :=
  if depth ≤ room then .ok a else .error (.tooDeep limit)

/-- What nests nothing always fits. -/
theorem fitting_zero (limit room : Nat) (a : α) : fitting limit room 0 a = .ok a :=
  if_pos (Nat.zero_le room)

/-- A result is given exactly if there is room, and then it is the one at hand. -/
theorem fitting_eq_ok_iff {limit room depth : Nat} {a b : α} :
    fitting limit room depth a = .ok b ↔ depth ≤ room ∧ b = a := by
  rw [fitting]
  split
  · next h => rw [and_iff_right h, Except.ok.injEq, eq_comm]
  · next h => simp [h]

/-- A container takes one from the room of its parts. -/
theorem fitting_succ (limit room depth : Nat) (a : α) (f : α → β) :
    (do pure (f (← fitting limit room depth a))) = fitting limit (room + 1) (depth + 1) (f a) := by
  simp only [fitting, Nat.add_le_add_iff_right]
  split <;> rfl

/-- Parts beside each other share the room. -/
theorem fitting_max (limit room depth deeper : Nat) (a : α) (b : β) (f : α → β → γ) :
    (do
      let a ← fitting limit room depth a
      let b ← fitting limit room deeper b
      pure (f a b)) = fitting limit room (max depth deeper) (f a b) := by
  simp only [fitting, Nat.max_le]
  by_cases h : depth ≤ room
  · by_cases h' : deeper ≤ room
    · rw [if_pos h, if_pos h', if_pos ⟨h, h'⟩]
      rfl
    · have hboth : ¬(depth ≤ room ∧ deeper ≤ room) := fun hle => h' hle.2
      rw [if_pos h, if_neg h', if_neg hboth]
      rfl
  · have hboth : ¬(depth ≤ room ∧ deeper ≤ room) := fun hle => h hle.1
    rw [if_neg h, if_neg hboth]
    rfl

end

mutual

/-- Generic JSON that is taken apart makes its document, or is too deep. -/
theorem toValue_datum (limit room : Nat) :
    (j : Json) → j.datum.toValue limit room = fitting limit room j.depth (Value.ofJson j)
  | null | bool _ | string _ | number (.integer _) | number (.float _) =>
    (fitting_zero limit room _).symm
  | array items => by
    rw [datum, depth]
    cases room with
    | zero => rfl
    | succ room =>
      rw [Datum.toValue, toValueItems_datumItems limit room items]
      exact fitting_succ limit room _ _ Value.array
  | object members => by
    rw [datum, depth]
    cases room with
    | zero => rfl
    | succ room =>
      rw [Datum.toValue, toValueEntries_datumMembers limit room members]
      exact fitting_succ limit room _ _ fun pairs => Value.object (Members.ofPairs pairs)

/-- The items are rebuilt one after the other, and fit if the deepest of them does. -/
theorem toValueItems_datumItems (limit room : Nat) :
    (items : List Json) → Datum.toValueItems limit room (datumItems items)
      = fitting limit room (itemsDepth items) (Value.ofJsonItems items)
  | [] => (fitting_zero limit room _).symm
  | item :: rest => by
    rw [datumItems, Datum.toValueItems, toValue_datum limit room item,
      toValueItems_datumItems limit room rest]
    exact fitting_max limit room _ _ _ _ List.cons

/-- The members are decoded each under its key, within the room that the deepest of them needs. -/
theorem toValueEntries_datumMembers (limit room : Nat) :
    (members : List (String × Json)) → Datum.toValueEntries limit room (datumMembers members)
      = fitting limit room (membersDepth members) (Value.ofJsonMembers members)
  | [] => (fitting_zero limit room _).symm
  | (key, item) :: rest => by
    rw [datumMembers, Datum.toValueEntries, toValue_datum limit room item,
      toValueEntries_datumMembers limit room rest]
    exact fitting_max limit room _ _ _ _ fun item rest => (key, item) :: rest

end

end Json

namespace Value

/-- A document made of a text is that of the generic JSON of the text, and it is made exactly
when the text is nested no deeper than the limit. A document made of generic JSON of any depth is
the same, and it is made exactly when that is nested no deeper than usual. -/
theorem decodes_as_ofJson :
    (∀ {text : List UInt8} {j : Json}, Json.parse text = .ok j → ∀ (limit : Nat) (v : Value),
        Value.parse limit text = .ok v ↔ Json.nesting text ≤ limit ∧ v = ofJson j) ∧
      ∀ (j : Json) (v : Value), decode j = .ok v ↔ j.depth ≤ 100 ∧ v = ofJson j := by
  refine ⟨fun {text j} h limit v => ⟨fun hparse => ?_, ?_⟩, fun j v => ?_⟩
  · have hle : Json.nesting text ≤ limit := Json.nesting_le_of_readText hparse
    have hread : Value.parse limit text = .ok (ofJson j) := (maps_ofJson.readText h limit).2 hle
    exact ⟨hle, Except.ok.inj (hparse.symm.trans hread)⟩
  · rintro ⟨hle, rfl⟩
    exact (maps_ofJson.readText h limit).2 hle
  · show j.datum.toValue 100 100 = .ok v ↔ _
    rw [Json.toValue_datum, Json.fitting_eq_ok_iff]

/-- The deepest containers stand under a key that is repeated, and brackets in a string open
nothing. -/
theorem decodes_as_ofJson_repeated :
    let text := bytesOf "\x7b\"a\":[[]],\"b\":1,\"a\":\"[[[[\"\x7d"
    let j : Json := .object [("a", .string "[[[["), ("b", .number (.integer 1))]
    let v : Value := .object [("a", .string "[[[["), ("b", ofInt 1)]
    Json.parse text = .ok j ∧ Value.parse 3 text = .ok v ∧ (∀ w, Value.parse 2 text ≠ .ok w) ∧
      decode j = .ok v := by
  intro text j v
  have hparse : Json.parse text = .ok j := rfl
  obtain ⟨htext, hdecode⟩ := decodes_as_ofJson
  refine ⟨hparse, ?_, ?_, ?_⟩
  · exact (htext hparse 3 v).2 ⟨by decide +kernel, rfl⟩
  · intro w hread
    exact absurd ((htext hparse 2 w).1 hread).1 (by decide +kernel)
  · exact (hdecode j v).2 ⟨by decide, rfl⟩

end Value

end JsonDoc
