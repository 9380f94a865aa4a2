import JsonDoc.Proofs.Json.Nesting
import JsonDoc.Proofs.Json.Reading

/-!
# `JsonDoc.Proofs.Json.Builders`: one text read for two builders

What a builder makes of the parts of a text has no part in how the text is read. So if a function
takes one builder's steps to another's (`Builder.Maps`), it takes what is read for the one to what
is read for the other, wherever the other has room for the nesting of the text (`Maps.readText`).
The function that keeps everything takes a builder to itself, so a text that is read is nested no
deeper than its limit (`nesting_le_of_readText`).

The readers are followed from place to place. `Spans depth` says that between two places containers
are nested `depth` deep and all of them are closed, and `Closes depth` that one container more is
closed at the end, which was opened before.
-/

set_option autoImplicit false

namespace JsonDoc.Json

/-! ### The nesting between two places -/

/-- Up to the rest containers are nested `depth` deep, and all of them are closed. -/
def Spans (depth : Nat) (cs rest : List UInt8) : Prop :=
  ∀ level deepest, level ≤ deepest →
    Scan.over ⟨.outside, level, deepest⟩ cs
      = Scan.over ⟨.outside, level, max deepest (level + depth)⟩ rest

/-- The same inside a container, which is closed at the end. -/
def Closes (depth : Nat) (cs rest : List UInt8) : Prop :=
  ∀ level deepest, level + 1 ≤ deepest →
    Scan.over ⟨.outside, level + 1, deepest⟩ cs
      = Scan.over ⟨.outside, level, max deepest (level + 1 + depth)⟩ rest

section
variable {depth deeper : Nat} {cs mid rest : List UInt8}

/-- Bytes that count for nothing nest nothing. -/
theorem Bare.spans (h : Bare cs rest) : Spans 0 cs rest := by
  intro level deepest hle
  rw [h.over_eq, Nat.add_zero, Nat.max_eq_left hle]

/-- Of two stretches, each closed at its end, the deeper one decides. -/
theorem Spans.trans (h : Spans depth cs mid) (h' : Spans deeper mid rest) :
    Spans (max depth deeper) cs rest := by
  intro level deepest hle
  rw [h level deepest hle, h' level _ (hle.trans (Nat.le_max_left ..)), Nat.max_assoc,
    Nat.add_max_add_left]

/-- A closed stretch in front of the end of a container. -/
theorem Spans.closes (h : Spans depth cs mid) (h' : Closes deeper mid rest) :
    Closes (max depth deeper) cs rest := by
  intro level deepest hle
  rw [h (level + 1) deepest hle, h' level _ (hle.trans (Nat.le_max_left ..)), Nat.max_assoc,
    Nat.add_max_add_left]

/-- Bytes that count for nothing in front change nothing. -/
theorem Bare.trans_spans (h : Bare cs mid) (h' : Spans depth mid rest) : Spans depth cs rest := by
  simpa using h.spans.trans h'

/-- Bytes that count for nothing change nothing in front of the end of a container either. -/
theorem Bare.trans_closes (h : Bare cs mid) (h' : Closes depth mid rest) :
    Closes depth cs rest := by
  simpa using h.spans.closes h'

/-- Bytes that count for nothing behind a closed stretch change nothing. -/
theorem Spans.trans_bare (h : Spans depth cs mid) (h' : Bare mid rest) : Spans depth cs rest := by
  simpa using h.trans h'.spans

/-- A string nests nothing, whatever brackets it contains. -/
theorem spans_string {s : String} (h : readString cs = .ok (s, rest)) :
    Spans 0 (0x22 :: cs) rest := by
  intro level deepest hle
  rw [Nat.add_zero, Nat.max_eq_left hle, ← Scan.over_readString h]
  rfl

/-- The bracket in front opens what is closed at the end. -/
theorem Closes.spans {bracket : UInt8} (hbracket : bracket = 0x5B ∨ bracket = 0x7B)
    (h : Closes depth cs rest) : Spans (depth + 1) (bracket :: cs) rest := by
  intro level deepest hle
  have hstep : Scan.step ⟨.outside, level, deepest⟩ bracket
      = ⟨.outside, level + 1, max deepest (level + 1)⟩ := by
    obtain rfl | rfl := hbracket <;> rfl
  rw [Scan.over, List.foldl_cons, hstep]
  refine (h level _ (Nat.le_max_right ..)).trans ?_
  rw [Nat.max_assoc, Nat.max_eq_right (Nat.le_add_right (level + 1) depth)]
  congr 3
  omega

/-- A closing bracket ends the container, and nothing was nested in front of it. -/
theorem closes_bracket {bracket : UInt8} (hbracket : bracket = 0x5D ∨ bracket = 0x7D)
    (h : Bare cs (bracket :: rest)) : Closes 0 cs rest := by
  intro level deepest hle
  have hstep : Scan.step ⟨.outside, level + 1, deepest⟩ bracket = ⟨.outside, level, deepest⟩ := by
    obtain rfl | rfl := hbracket <;> rfl
  rw [h.over_eq, Scan.over, List.foldl_cons, hstep, Nat.add_zero, Nat.max_eq_left hle]
  rfl

/-- A text whose containers are all closed is nested as deep as they are. -/
theorem Spans.nesting_eq (h : Spans depth cs []) : nesting cs = depth := by
  rw [nesting, h 0 0 (Nat.le_refl 0)]
  simp [Scan.over]

end

/-! ### Two readers of the same parts -/

section
variable {α β : Type}

/-- What `read` reads has containers nested at most `room` deep, and `other` reads the image of
it, up to the same place, if it is given room for them. The nesting up to that place is as `span`
says. -/
def ReadAlike (span : Nat → List UInt8 → List UInt8 → Prop) (f : α → β) (room : Nat)
    (read : List UInt8 → Except Stop (α × List UInt8))
    (other : Nat → List UInt8 → Except Stop (β × List UInt8)) : Prop :=
  ∀ ⦃cs a rest⦄, read cs = .ok (a, rest) →
    ∃ depth ≤ room, span depth cs rest ∧
      ∀ space, depth ≤ space → other space cs = .ok (f a, rest)

variable {f : α → β} {room count : Nat} {brackets : Brackets}
  {part : List UInt8 → Except Stop (α × List UInt8)}
  {other : Nat → List UInt8 → Except Stop (β × List UInt8)}

/-- The first part and those behind it. -/
theorem ReadAlike.cons (hpart : ReadAlike Spans f room part other)
    {more : List UInt8 → Except Stop (List α × List UInt8)}
    {others : Nat → List UInt8 → Except Stop (List β × List UInt8)}
    (hmore : ReadAlike Closes (List.map f) room more others) :
    ReadAlike Closes (List.map f) room
      (fun cs => do
        let (first, rest) ← part cs
        let (behind, rest) ← more rest
        pure (first :: behind, rest))
      (fun space cs => do
        let (first, rest) ← other space cs
        let (behind, rest) ← others space rest
        pure (first :: behind, rest)) := by
  intro cs as rest h
  simp only [bind_eq_ok_iff, Prod.exists] at h
  obtain ⟨first, afterFirst, hfirst, behind, afterBehind, hbehind, h⟩ := h
  cases h
  obtain ⟨depth, hdepth, hspans, hother⟩ := hpart hfirst
  obtain ⟨deeper, hdeeper, hcloses, hothers⟩ := hmore hbehind
  -- The parts stand beside each other: the room must fit the deeper of the two.
  refine ⟨max depth deeper, Nat.max_le.2 ⟨hdepth, hdeeper⟩, hspans.closes hcloses, ?_⟩
  intro space hle
  obtain ⟨hle, hle'⟩ := Nat.max_le.1 hle
  simp only [hother space hle, ok_bind, hothers space hle']
  rfl

/-- Both sides read the parts behind the first one alike, up to the closing bracket. The number of
parts that either side may read is the same. -/
theorem ReadAlike.readMore (hpart : ReadAlike Spans f room part other)
    (hclose : brackets.close = 0x5D ∨ brackets.close = 0x7D) :
    ReadAlike Closes (List.map f) room (readMore brackets part count)
      fun space => Json.readMore brackets (other space) count := by
  -- The count only bounds how many parts may follow.
  induction count with
  | zero => exact nofun
  | succ count ih =>
    intro cs as rest h
    rw [Json.readMore] at h
    split at h
    · cases h
    · next c afterSpace hspace =>
      have hbare : Bare cs (c :: afterSpace) := bare_skipSpace hspace
      split at h
      · next hc =>
        cases h
        refine ⟨0, Nat.zero_le _, closes_bracket (hc ▸ hclose) hbare, fun space _ => ?_⟩
        simp only [Json.readMore, hspace, if_pos hc]
        rfl
      · next hc =>
        split at h
        · next hcomma =>
          split at h
          · cases h
          · next c' afterComma hspace' =>
            have hbare' : Bare cs (c' :: afterComma) :=
              hbare.trans (.cons (hcomma ▸ by decide) (bare_skipSpace hspace'))
            split at h
            · cases h
            · next hc' =>
              obtain ⟨depth, hdepth, hcloses, hothers⟩ := hpart.cons ih h
              refine ⟨depth, hdepth, hbare'.trans_closes hcloses, fun space hle => ?_⟩
              simp only [Json.readMore, hspace, if_neg hc, if_pos hcomma, hspace', if_neg hc']
              exact hothers space hle
        · cases h

/-- Both sides read the parts between two brackets alike, if there are any. -/
theorem ReadAlike.readParts (hpart : ReadAlike Spans f room part other)
    (hclose : brackets.close = 0x5D ∨ brackets.close = 0x7D) :
    ReadAlike Closes (List.map f) room (readParts brackets part count)
      fun space => Json.readParts brackets (other space) count := by
  intro cs as rest h
  rw [Json.readParts] at h
  split at h
  · cases h
  · next c afterSpace hspace =>
    have hbare : Bare cs (c :: afterSpace) := bare_skipSpace hspace
    split at h
    · next hc =>
      cases h
      -- Nothing between the brackets, so that every room will do.
      refine ⟨0, Nat.zero_le _, closes_bracket (hc ▸ hclose) hbare, fun space _ => ?_⟩
      simp only [Json.readParts, hspace, if_pos hc]
      rfl
    · next hc =>
      obtain ⟨depth, hdepth, hcloses, hothers⟩ := hpart.cons (hpart.readMore hclose) h
      refine ⟨depth, hdepth, hbare.trans_closes hcloses, fun space hle => ?_⟩
      simp only [Json.readParts, hspace, if_neg hc]
      exact hothers space hle

/-- Both sides read a member alike if they read its value alike; the key nests nothing. -/
theorem ReadAlike.readMember (hvalue : ReadAlike Spans f room part other) :
    ReadAlike Spans (Prod.map id f) room (readMember part)
      fun space => Json.readMember (other space) := by
  intro cs m rest h
  rw [readMember.eq_def] at h
  split at h
  · next afterQuote =>
    simp only [bind_eq_ok_iff, Prod.exists] at h
    obtain ⟨key, afterKey, hkey, h⟩ := h
    split at h
    · cases h
    · next afterColon hspace =>
      simp only [bind_eq_ok_iff, Prod.exists] at h
      obtain ⟨item, afterItem, hitem, h⟩ := h
      cases h
      obtain ⟨depth, hdepth, hspan, hother⟩ := hvalue hitem
      -- Name and colon hold no bracket outside strings, so all depth is that of the value.
      have hcolon : Bare afterKey afterColon :=
        (bare_skipSpace hspace).trans (.cons (by decide) (.refl afterColon))
      refine ⟨depth, hdepth, ?_, ?_⟩
      · simpa using (spans_string hkey).trans (hcolon.trans_spans hspan)
      · intro space hle
        simp only [Json.readMember, hkey, ok_bind, hspace, hother space hle]
        rfl
    · cases h
  · cases h
  · cases h

/-- The brackets of a container count one, and it takes one from the room. -/
theorem ReadAlike.container (hparts : ReadAlike Closes f room part other) {bracket : UInt8}
    (hbracket : bracket = 0x5B ∨ bracket = 0x7B) {cs afterSpace rest : List UInt8} {a : α}
    (hspace : skipSpace cs = bracket :: afterSpace) (h : part afterSpace = .ok (a, rest)) :
    ∃ depth ≤ room + 1, Spans depth cs rest ∧ ∀ space, depth ≤ space →
      ∃ left, space = left + 1 ∧ other left afterSpace = .ok (f a, rest) := by
  have hbare : Bare cs (bracket :: afterSpace) := bare_skipSpace hspace
  obtain ⟨depth, hdepth, hcloses, hother⟩ := hparts h
  refine ⟨depth + 1, Nat.succ_le_succ hdepth, hbare.trans_spans (hcloses.spans hbracket), ?_⟩
  intro space hle
  obtain ⟨left, rfl⟩ := Nat.exists_eq_add_of_le' (Nat.one_le_of_lt hle)
  exact ⟨left, rfl, hother left (Nat.le_of_succ_le_succ hle)⟩

end

/-! ### Two builders -/

section
variable {α β : Type} {A : Builder α} {B : Builder β} {f : α → β}

/-- The function takes what one builder makes to what the other makes of the same parts. -/
structure Builder.Maps (A : Builder α) (B : Builder β) (f : α → β) : Prop where
  null : f A.null = B.null
  bool : ∀ b, f (A.bool b) = B.bool b
  number : ∀ n, f (A.number n) = B.number n
  string : ∀ s, f (A.string s) = B.string s
  array : ∀ items, f (A.array items) = B.array (items.map f)
  object : ∀ pairs, f (A.object pairs) = B.object (pairs.map (Prod.map id f))

/-- Every builder is taken to itself. -/
theorem Builder.maps_id (A : Builder α) : A.Maps A id where
  null := rfl
  bool _ := rfl
  number _ := rfl
  string _ := rfl
  array items := by rw [List.map_id]; rfl
  object pairs := by rw [Prod.map_id, List.map_id]; rfl

/-- A scalar is read to the image of what the other builder makes of it, and fails with the same
stop. -/
theorem Builder.Maps.readScalar_eq (hmaps : A.Maps B f) (c : UInt8) (cs : List UInt8) :
    readScalar B c cs = Prod.map f id <$> readScalar A c cs := by
  rw [readScalar.eq_def, readScalar.eq_def]
  split
  · simp [hmaps.null]
  · simp [hmaps.bool]
  · simp [hmaps.bool]
  · simp [hmaps.string]
  · simp [hmaps.number]
  · split
    · simp [hmaps.number]
    · rfl

/-- A value that is not a container opens nothing. -/
theorem spans_readScalar {c : UInt8} {cs rest : List UInt8} {a : α}
    (h : readScalar A c cs = .ok (a, rest)) : Spans 0 (c :: cs) rest := by
  rw [readScalar.eq_def] at h
  split at h
  -- The three words, then strings, negative numbers and other numbers.
  case h_1 | h_2 | h_3 =>
    simp only [bind_eq_ok_iff] at h
    obtain ⟨afterWord, hword, h⟩ := h
    cases h
    exact (Bare.cons (by decide) (bare_readWord rfl hword)).spans
  case h_4 =>
    simp only [bind_eq_ok_iff, Prod.exists] at h
    obtain ⟨s, afterString, hstring, h⟩ := h
    cases h
    exact spans_string hstring
  case h_5 =>
    simp only [bind_eq_ok_iff, Prod.exists] at h
    obtain ⟨n, afterNumber, hnumber, h⟩ := h
    cases h
    exact (Bare.cons (by decide) (bare_readNumeral hnumber)).spans
  case h_6 =>
    split at h
    · simp only [bind_eq_ok_iff, Prod.exists] at h
      obtain ⟨n, afterNumber, hnumber, h⟩ := h
      cases h
      exact (bare_readNumeral hnumber).spans
    · cases h

/-- A scalar is read alike within any limits, as it nests nothing. -/
theorem Builder.Maps.exists_readScalar (hmaps : A.Maps B f) {c : UInt8}
    {cs afterSpace rest : List UInt8} {a : α} (hspace : skipSpace cs = c :: afterSpace)
    (hbracket : c ≠ 0x5B) (hbrace : c ≠ 0x7B) (h : readScalar A c afterSpace = .ok (a, rest))
    (count limit budget room : Nat) :
    ∃ depth ≤ room, Spans depth cs rest ∧
      ∀ space, depth ≤ space → readValue B count limit budget space cs = .ok (f a, rest) := by
  have hbare : Bare cs (c :: afterSpace) := bare_skipSpace hspace
  refine ⟨0, Nat.zero_le room, hbare.trans_spans (spans_readScalar h), fun space _ => ?_⟩
  rw [Grammar.readValue_eq_readScalar hspace hbracket hbrace, hmaps.readScalar_eq, h]
  rfl

/-- One text is read alike for both builders, whatever the limit is that each reports. -/
theorem Builder.Maps.readAlike (hmaps : A.Maps B f) (count limit limit' budget room : Nat) :
    ReadAlike Spans f room (readValue A count limit budget room)
      (readValue B count limit' budget) := by
  -- The parts of a container are read within one less of the budget and of the room.
  induction budget generalizing room with
  | zero =>
    intro cs a rest h
    rw [readValue.eq_def] at h
    split at h
    · cases h
    · cases h
    · cases h
    · next c afterSpace hbracket hbrace hspace =>
      exact hmaps.exists_readScalar hspace hbracket hbrace h count limit' 0 room
  | succ budget ih =>
    intro cs a rest h
    rw [readValue.eq_def] at h
    split at h
    · cases h
    · next afterSpace hspace =>
      cases room with
      | zero => cases h
      | succ room =>
        simp only [bind_eq_ok_iff, Prod.exists] at h
        obtain ⟨items, afterItems, hitems, h⟩ := h
        cases h
        obtain ⟨depth, hdepth, hspans, hother⟩ :=
          ((ih room).readParts (.inl rfl)).container (.inl rfl) hspace hitems
        refine ⟨depth, hdepth, hspans, fun space hle => ?_⟩
        obtain ⟨left, rfl, hleft⟩ := hother space hle
        simp only [readValue.eq_def B, hspace, hmaps.array]
        exact congrArg (· >>= _) hleft
    · next afterSpace hspace =>
      cases room with
      | zero => cases h
      | succ room =>
        simp only [bind_eq_ok_iff, Prod.exists] at h
        obtain ⟨pairs, afterPairs, hpairs, h⟩ := h
        cases h
        obtain ⟨depth, hdepth, hspans, hother⟩ :=
          ((ih room).readMember.readParts (.inr rfl)).container (.inr rfl) hspace hpairs
        refine ⟨depth, hdepth, hspans, fun space hle => ?_⟩
        obtain ⟨left, rfl, hleft⟩ := hother space hle
        simp only [readValue.eq_def B, hspace, hmaps.object]
        exact congrArg (· >>= _) hleft
    · next c afterSpace hbracket hbrace hspace =>
      exact hmaps.exists_readScalar hspace hbracket hbrace h count limit' (budget + 1) room

/-- What one builder makes of a text, the other makes the image of, if its limit allows the nesting
of the text. -/
theorem Builder.Maps.readText (hmaps : A.Maps B f) {limit : Nat} {text : List UInt8} {a : α}
    (h : readText A limit text = .ok a) (limit' : Nat) :
    nesting text ≤ limit ∧
      (nesting text ≤ limit' → Json.readText B limit' text = .ok (f a)) := by
  rw [Json.readText] at h
  split at h
  · next value hread =>
    cases h
    simp only [readAll, bind_eq_ok_iff, Prod.exists] at hread
    obtain ⟨found, rest, hvalue, hend⟩ := hread
    split at hend
    · next hspace =>
      cases hend
      have hbare : Bare rest [] := bare_skipSpace hspace
      obtain ⟨depth, hdepth, hspans, hother⟩ :=
        hmaps.readAlike text.length limit limit' nestingLimit limit hvalue
      -- What follows the value is blank, so the depth of the text is the depth of its value.
      rw [(hspans.trans_bare hbare).nesting_eq]
      refine ⟨hdepth, fun hle => ?_⟩
      rw [Json.readText, readAll, hother limit' hle, ok_bind]
      simp only [hspace]
      rfl
    · cases hend
  · cases h

/-- A text that is read is nested no deeper than its limit. -/
theorem nesting_le_of_readText {limit : Nat} {text : List UInt8} {a : α}
    (h : readText A limit text = .ok a) : nesting text ≤ limit :=
  (A.maps_id.readText h limit).1

end

end JsonDoc.Json
