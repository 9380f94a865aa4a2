import JsonDoc.Json.Document
import JsonDoc.Proofs.Edit.Child
import JsonDoc.Proofs.Outcome
import JsonDoc.Proofs.Value.Depth

/-!
# `JsonDoc.Proofs.Json.Built`: what holds of everything that is read

A JSON text is read by putting its parts together, whatever they are put together to. So a
property that every builder's step keeps holds of all that is read. `Builder.Keeps` lets the
property depend on how deep containers may still be nested: a container with room for `n + 1`
levels is built from parts with room for `n`.

There are two uses here: a document is no deeper than the limit that it was read with
(`Value.depth_le_of_parse`), and it is well formed, whatever keys its text repeats
(`Value.wellFormed_of_parse`).
-/

set_option autoImplicit false

namespace JsonDoc

namespace Json

/-- Every step of the builder keeps the property, where a container takes one from the room. -/
structure Builder.Keeps {α : Type} (builder : Builder α) (P : Nat → α → Prop) : Prop where
  null : ∀ room, P room builder.null
  bool : ∀ room b, P room (builder.bool b)
  number : ∀ room n, P room (builder.number n)
  string : ∀ room s, P room (builder.string s)
  array : ∀ room items, (∀ item ∈ items, P room item) → P (room + 1) (builder.array items)
  object : ∀ room pairs, (∀ pair ∈ pairs, P room pair.2) → P (room + 1) (builder.object pairs)

section
variable {α : Type} {Q : α → Prop} {part : List UInt8 → Except Stop (α × List UInt8)}
  {cs rest : List UInt8} {as : List α} {brackets : Brackets} {count : Nat}

/-- What holds of each part holds of all parts that follow the first. -/
theorem forall_mem_of_readMore (hpart : ∀ {cs a rest}, part cs = .ok (a, rest) → Q a)
    (h : readMore brackets part count cs = .ok (as, rest)) : ∀ a ∈ as, Q a := by
  -- The count only bounds how many parts may follow.
  induction count generalizing cs rest as with
  | zero => cases h
  | succ count ih =>
    rw [readMore] at h
    split at h
    · cases h
    · split at h
      · cases h
        exact fun a mem => absurd mem List.not_mem_nil
      · split at h
        · split at h
          · cases h
          · split at h
            · cases h
            · simp only [bind_eq_ok_iff, Prod.exists] at h
              obtain ⟨first, afterFirst, hfirst, others, afterOthers, hothers, h⟩ := h
              cases h
              exact List.forall_mem_cons.2 ⟨hpart hfirst, ih hothers⟩
        · cases h

/-- What holds of every part that is read holds of all parts of a list. -/
theorem forall_mem_of_readParts (hpart : ∀ {cs a rest}, part cs = .ok (a, rest) → Q a)
    (h : readParts brackets part count cs = .ok (as, rest)) : ∀ a ∈ as, Q a := by
  rw [readParts] at h
  split at h
  · cases h
  · split at h
    · cases h
      exact fun a mem => absurd mem List.not_mem_nil
    · simp only [bind_eq_ok_iff, Prod.exists] at h
      obtain ⟨first, afterFirst, hfirst, others, afterOthers, hothers, h⟩ := h
      cases h
      exact List.forall_mem_cons.2 ⟨hpart hfirst, forall_mem_of_readMore hpart hothers⟩

/-- What holds of every value that is read holds of that of a member. -/
theorem of_readMember {value : List UInt8 → Except Stop (α × List UInt8)} {pair : String × α}
    (hvalue : ∀ {cs a rest}, value cs = .ok (a, rest) → Q a)
    (h : readMember value cs = .ok (pair, rest)) : Q pair.2 := by
  rw [readMember.eq_def] at h
  split at h
  · simp only [bind_eq_ok_iff, Prod.exists] at h
    obtain ⟨key, afterKey, -, h⟩ := h
    split at h
    · cases h
    · simp only [bind_eq_ok_iff, Prod.exists] at h
      obtain ⟨item, afterItem, hitem, h⟩ := h
      cases h
      exact hvalue hitem
    · cases h
  · cases h
  · cases h

end

section
variable {α : Type} {builder : Builder α} {P : Nat → α → Prop}

/-- Whatever is built of a scalar has the property, for any room. -/
theorem Builder.Keeps.of_readScalar (keeps : builder.Keeps P) {c : UInt8} {cs rest : List UInt8}
    {a : α} (h : readScalar builder c cs = .ok (a, rest)) (room : Nat) : P room a := by
  rw [readScalar.eq_def] at h
  -- A word, a string or a number: each case ends in a call of the builder.
  split at h
  · simp only [bind_eq_ok_iff] at h
    obtain ⟨afterWord, -, h⟩ := h
    cases h
    exact keeps.null room
  · simp only [bind_eq_ok_iff] at h
    obtain ⟨afterWord, -, h⟩ := h
    cases h
    exact keeps.bool room true
  · simp only [bind_eq_ok_iff] at h
    obtain ⟨afterWord, -, h⟩ := h
    cases h
    exact keeps.bool room false
  · simp only [bind_eq_ok_iff, Prod.exists] at h
    obtain ⟨s, afterString, -, h⟩ := h
    cases h
    exact keeps.string room s
  · simp only [bind_eq_ok_iff, Prod.exists] at h
    obtain ⟨n, afterNumber, -, h⟩ := h
    cases h
    exact keeps.number room n
  · split at h
    · simp only [bind_eq_ok_iff, Prod.exists] at h
      obtain ⟨n, afterNumber, -, h⟩ := h
      cases h
      exact keeps.number room n
    · cases h

/-- What is read within some room has the property for that room. -/
theorem Builder.Keeps.of_readValue (keeps : builder.Keeps P) {count limit budget room : Nat}
    {cs rest : List UInt8} {a : α}
    (h : readValue builder count limit budget room cs = .ok (a, rest)) : P room a := by
  -- The parts of a container are read within one less of the budget and of the room.
  induction budget generalizing room cs rest a with
  | zero =>
    rw [readValue.eq_def] at h
    split at h
    · cases h
    · cases h
    · cases h
    · exact keeps.of_readScalar h room
  | succ budget ih =>
    rw [readValue.eq_def] at h
    split at h
    · cases h
    · cases room with
      | zero => cases h
      | succ room =>
        simp only [bind_eq_ok_iff, Prod.exists] at h
        obtain ⟨items, afterItems, hitems, h⟩ := h
        cases h
        exact keeps.array room items (forall_mem_of_readParts (fun h => ih h) hitems)
    · cases room with
      | zero => cases h
      | succ room =>
        simp only [bind_eq_ok_iff, Prod.exists] at h
        obtain ⟨pairs, afterPairs, hpairs, h⟩ := h
        cases h
        exact keeps.object room pairs
          (forall_mem_of_readParts (of_readMember fun h => ih h) hpairs)
    · exact keeps.of_readScalar h room

/-- Whatever is built of a whole text has the property for the limit. -/
theorem Builder.Keeps.of_readText (keeps : builder.Keeps P) {limit : Nat} {text : List UInt8}
    {a : α} (h : readText builder limit text = .ok a) : P limit a := by
  rw [readText] at h
  split at h
  · next value hread =>
    cases h
    simp only [readAll, bind_eq_ok_iff, Prod.exists] at hread
    obtain ⟨found, rest, hvalue, hend⟩ := hread
    split at hend
    · cases hend
      exact keeps.of_readValue hvalue
    · cases hend
  · cases h

end

end Json

/-! ### Objects made of pairs -/

/-- The values of an object come from the pairs it was made of. -/
theorem Members.mem_values_putAll {α : Type} {members : Members α} {pairs : List (String × α)}
    {a : α} (h : a ∈ values (putAll members pairs)) :
    a ∈ values members ∨ ∃ pair ∈ pairs, pair.2 = a := by
  induction pairs generalizing members with
  | nil => exact .inl h
  | cons pair pairs ih =>
    obtain hput | ⟨other, hother, rfl⟩ := ih h
    · obtain rfl | hmembers := mem_values_put hput
      · exact .inr ⟨pair, List.mem_cons_self, rfl⟩
      · exact .inl hmembers
    · exact .inr ⟨other, List.mem_cons_of_mem _ hother, rfl⟩

/-- A pair under a key that is there already replaces the value, so keys never repeat. -/
theorem Members.nodup_keys_putAll {α : Type} {members : Members α} {pairs : List (String × α)}
    (h : (keys members).Nodup) : (keys (putAll members pairs)).Nodup := by
  induction pairs generalizing members with
  | nil => exact h
  | cons pair pairs ih => exact ih (nodup_keys_put h)

/-- What holds of the values of all pairs holds of the values of the object. -/
theorem Members.forall_mem_values_ofPairs {α : Type} {Q : α → Prop} {pairs : List (String × α)}
    (h : ∀ pair ∈ pairs, Q pair.2) : ∀ a ∈ values (ofPairs pairs), Q a := by
  intro a mem
  obtain hnone | ⟨pair, hpair, rfl⟩ := mem_values_putAll mem
  · exact absurd hnone List.not_mem_nil
  · exact h pair hpair

/-! ### Documents -/

/-- Documents are built no deeper than there is room for. -/
theorem Value.builder_keeps_depth : Value.builder.Keeps fun room v => v.depth ≤ room where
  null _ := Nat.zero_le _
  bool _ _ := Nat.zero_le _
  number _ _ := Nat.zero_le _
  string _ _ := Nat.zero_le _
  array _ _ h := depth_le_succ_iff.2 h
  object _ _ h := depth_le_succ_iff.2 (Members.forall_mem_values_ofPairs h)

/-- Documents are built with keys that differ, also where the text repeats a key. -/
theorem Value.builder_keeps_wellFormed : Value.builder.Keeps fun _ v => v.WellFormed where
  null _ := trivial
  bool _ _ := trivial
  number _ _ := trivial
  string _ _ := trivial
  array _ _ h := wellFormedItems_iff.2 h
  object _ _ h :=
    ⟨Members.nodup_keys_putAll List.nodup_nil,
      wellFormedMembers_iff.2 (Members.forall_mem_values_ofPairs h)⟩

/-- A document is no deeper than the limit that it was read with. -/
theorem Value.depth_le_of_parse {limit : Nat} {text : List UInt8} {v : Value}
    (h : Value.parse limit text = .ok v) : v.depth ≤ limit :=
  builder_keeps_depth.of_readText h

/-- A document that was read is well formed. -/
theorem Value.wellFormed_of_parse {limit : Nat} {text : List UInt8} {v : Value}
    (h : Value.parse limit text = .ok v) : v.WellFormed :=
  builder_keeps_wellFormed.of_readText h

end JsonDoc
