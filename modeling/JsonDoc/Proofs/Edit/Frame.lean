import JsonDoc.Proofs.Edit.Commute

/-!
# `JsonDoc.Proofs.Edit.Frame`: what an assignment changes and what it leaves

An assignment along members and items that succeeds reaches one location, `targetOf`: indices that
count from the end are resolved against the arrays as they stand before the call. `Frame` says all
that such an assignment does to the rest of the document. What was there stays, unless it is on the
way to the location or below it; the containers on the way get one child at most besides the nulls
that pad an array; and nothing else is made.

One segment of the assignment puts one child (`exists_step_of_assign_any`), and a frame of the child
is a frame of the value around it (`Frame.putChild`). So the frame of a whole call is an induction
over the segments, `Path.set_frame`.
-/

set_option autoImplicit false

namespace JsonDoc

namespace Value

/-- The items of an array; anything else has none. -/
def items (v : Value) : List Value := v.array?.getD []

/-- The members of an object; anything else has none. -/
def members (v : Value) : Members Value := v.object?.getD []

/-- The node at a location, and a null where there is none. -/
def atOrNull (v : Value) (location : Location) : Value := (v.at? location).getD null

end Value

/-- The step along which a segment goes from a value. An index is resolved against the items that
are there. -/
def Segment.step? (segment : Segment) (v : Value) : Option Step :=
  match segment with
  | property name => some (.key name)
  | index i => (resolveIndex v.items.length i).map Step.item
  | _ => none

/-- The location at which an assignment along the segments puts its value. Below a node that is
missing it goes as below a null. -/
def targetOf : List Segment → Value → Option Location
  | [], _ => some []
  | segment :: rest, v => do
    let step ← segment.step? v
    let location ← targetOf rest (v.childOrNull step)
    pure (step :: location)

/-- What an assignment of `new` at `location` makes of a document, with arrays lengthened by
`growth` items at most. -/
structure Frame (growth : Nat) (before : Value) (location : Location) (new after : Value) :
    Prop where
  /-- The new value stands at the location. -/
  holds : after.at? location = some new
  /-- What was neither on the way to the location nor below it is the same. -/
  elsewhere : ∀ other w, before.at? other = some w → ¬other <+: location → ¬location <+: other →
    after.at? other = some w
  /-- What was not below the location is still there and of its kind, except for nulls on the
  way. -/
  kinds : ∀ other w, before.at? other = some w → ¬location <+: other →
    ∃ left, after.at? other = some left ∧ (left.kind = w.kind ∨ w = .null ∧ other <+: location)
  /-- Members keep their order, and the only one that an object can get comes last and is on the
  way. -/
  members : ∀ other members, after.at? other = some (.object members) → ¬location <+: other →
    Members.keys members = Members.keys (before.atOrNull other).members ∨
      ∃ name, other ++ [.key name] <+: location ∧
        name ∉ Members.keys (before.atOrNull other).members ∧
        Members.keys members = Members.keys (before.atOrNull other).members ++ [name]
  /-- An array that is longer than before ends with the item on the way, and what else it got are
  nulls. -/
  items : ∀ other items, after.at? other = some (.array items) → ¬location <+: other →
    items.length = (before.atOrNull other).items.length ∨
      ∃ place, other ++ [.item place] <+: location ∧
        (before.atOrNull other).items.length ≤ place ∧ items.length = place + 1 ∧
        items.length ≤ (before.atOrNull other).items.length + growth ∧
        ∀ pad < place, (before.atOrNull other).items.length ≤ pad → items[pad]? = some .null
  /-- Nothing is made but the way to the location, what stands there, and the nulls that pad an
  array on the way. -/
  made : ∀ other w, after.at? other = some w → before.at? other = none →
    other <+: location ∨ location <+: other ∨
      w = .null ∧ ∃ front place pad, other = front ++ [.item pad] ∧
        front ++ [.item place] <+: location ∧ (before.atOrNull front).items.length ≤ pad ∧
        pad < place

/-! ### One child -/

/-- Only steps to items come before each other. -/
theorem Step.exists_of_precedes {step later : Step} (h : step.precedes later) :
    ∃ place next, step = .item place ∧ later = .item next ∧ place < next := by
  rw [precedes.eq_def] at h
  split at h
  · next place next => exact ⟨place, next, rfl, rfl, of_decide_eq_true h⟩
  · cases h

namespace Value

section
variable {v w child : Value} {step found : Step} {location : Location}

/-- The empty location is that of the value itself. -/
theorem atOrNull_nil (v : Value) : v.atOrNull [] = v := rfl

/-- Where there is a node it is that one. -/
theorem atOrNull_of_at? (h : v.at? location = some w) : v.atOrNull location = w := by
  rw [atOrNull, h, Option.getD_some]

/-- Nothing is below a null. -/
theorem at?_null_cons (step : Step) (rest : Location) : null.at? (step :: rest) = none := by
  cases step <;> rfl

/-- A missing child stands as a null, so that the rest of the location is followed from there. -/
theorem atOrNull_cons (v : Value) (step : Step) (rest : Location) :
    v.atOrNull (step :: rest) = (v.childOrNull step).atOrNull rest := by
  rw [atOrNull, at?, childOrNull]
  cases v.child? step with
  | some child => rfl
  | none =>
    cases rest with
    | nil => rfl
    | cons next rest => simp [atOrNull, at?_null_cons]

/-- What is below a child is there below it. -/
theorem at?_childOrNull (h : v.at? (step :: location) = some w) :
    (v.childOrNull step).at? location = some w := by
  obtain ⟨child, hchild, hat⟩ := Option.bind_eq_some_iff.1 h
  rwa [childOrNull_of_child? hchild]

/-- What is below a child that may be missing is not there only if it is the missing child. -/
theorem at?_childOrNull_eq_none (h : v.at? (step :: location) = none) :
    location = [] ∨ (v.childOrNull step).at? location = none := by
  rw [at?, Option.bind_eq_none_iff] at h
  cases hchild : v.child? step with
  | some child =>
    rw [childOrNull_of_child? hchild]
    exact .inr (h child hchild)
  | none =>
    cases location with
    | nil => exact .inl rfl
    | cons next rest =>
      rw [childOrNull, hchild]
      exact .inr (at?_null_cons next rest)

/-- Below the step the new child is all there is. -/
theorem at?_putChild_self (h : v.Takes step) (child : Value) (location : Location) :
    (v.putChild step child).at? (step :: location) = child.at? location :=
  at?_cons_of_child? (child?_putChild h child) location

/-- Below another step nothing is lost. -/
theorem at?_putChild_of_ne (h : v.Takes step) (hne : found ≠ step)
    (hat : v.at? (found :: location) = some w) (child : Value) :
    (v.putChild step child).at? (found :: location) = some w := by
  obtain ⟨old, hold, hat⟩ := Option.bind_eq_some_iff.1 hat
  rw [at?, child?_putChild_eq h, if_neg hne, hold]
  exact hat

/-- Beside the child that was put there is what was there before, and the nulls of a longer
array. -/
theorem at?_putChild_cases (h : v.Takes step) (hne : found ≠ step)
    (hat : (v.putChild step child).at? (found :: location) = some w) :
    v.at? (found :: location) = some w ∨
      v.child? found = none ∧ found.precedes step ∧ location = [] ∧ w = null := by
  rw [at?, child?_putChild_eq h, if_neg hne] at hat
  cases hold : v.child? found with
  | some old =>
    rw [hold] at hat
    rw [at?, hold]
    exact .inl hat
  | none =>
    rw [hold, Option.none_or] at hat
    split at hat
    · next hprecedes =>
      -- An item that was not there before and comes before the one put is padding.
      refine .inr ⟨rfl, hprecedes, ?_⟩
      cases location with
      | nil =>
        cases hat
        exact ⟨rfl, rfl⟩
      | cons next rest =>
        rw [Option.bind_some, at?_null_cons] at hat
        cases hat
    · cases hat

/-- The members of the object in which a member was put. -/
theorem keys_putChild {name : String} {members : List (String × Value)}
    (h : v.Takes (.key name)) (heq : v.putChild (.key name) child = object members) :
    Members.keys members = if name ∈ Members.keys v.members then Members.keys v.members
      else Members.keys v.members ++ [name] := by
  cases v with
  | object old =>
    cases heq
    exact Members.keys_put
  | null =>
    cases heq
    rfl
  | _ => exact h.elim

/-- The length of the array in which an item was put. -/
theorem length_putChild {place : Nat} {items : List Value} (h : v.Takes (.item place))
    (heq : v.putChild (.item place) child = array items) :
    items.length = max v.items.length (place + 1) := by
  cases v with
  | array old =>
    cases heq
    show _ = max old.length (place + 1)
    split
    · rw [List.length_set]
      omega
    · simp only [List.length_append, List.length_replicate, List.length_singleton]
      omega
  | null =>
    cases heq
    show _ = max 0 (place + 1)
    simp
  | _ => exact h.elim

end

/-- A step to an item leads at most `growth` items beyond the end of the array. -/
def HasRoom (growth : Nat) (v : Value) (step : Step) : Prop :=
  ∀ place, step = .item place → place < v.items.length + growth

/-- A member needs no room. -/
theorem hasRoom_key (growth : Nat) (v : Value) (name : String) : v.HasRoom growth (.key name) := by
  intro place hstep
  cases hstep

/-- The items between the old end of the array and the one that was put are nulls. -/
theorem padding_putChild {v child : Value} {place pad : Nat} {items : List Value}
    (h : v.Takes (.item place)) (heq : v.putChild (.item place) child = array items)
    (hold : v.items.length ≤ pad) (hpad : pad < place) : items[pad]? = some null := by
  have habsent : v.child? (.item pad) = none := by
    cases v with
    | array old => exact List.getElem?_eq_none hold
    | _ => rfl
  have hne : Step.item pad ≠ .item place := by
    intro hsame
    cases hsame
    exact Nat.lt_irrefl _ hpad
  have hprecedes : (Step.item pad).precedes (.item place) = true := decide_eq_true hpad
  have hchild := child?_putChild_eq h child (.item pad)
  rw [if_neg hne, habsent, Option.none_or, if_pos hprecedes, heq] at hchild
  exact hchild

end Value

/-! ### Frames -/

section
variable {growth : Nat} {v w new child : Value} {step : Step} {location other : Location}

/-- At the end of the way the new value takes the place of the old one, and nothing else is
there. -/
theorem Frame.nil (growth : Nat) (v new : Value) : Frame growth v [] new new where
  holds := rfl
  elsewhere _ _ _ _ hbelow := absurd List.nil_prefix hbelow
  kinds _ _ _ hbelow := absurd List.nil_prefix hbelow
  members _ _ _ hbelow := absurd List.nil_prefix hbelow
  items _ _ _ hbelow := absurd List.nil_prefix hbelow
  made _ _ _ _ := .inr (.inl List.nil_prefix)

/-- A value in which a child is put is a container for the child, or it was a null. -/
theorem Value.kind_putChild_or_null (takes : v.Takes step) (child : Value) :
    (v.putChild step child).kind = v.kind ∨ v = .null := by
  rw [Value.kind_putChild_of_takes takes]
  rw [Value.Takes.eq_def] at takes
  split at takes
  · exact .inl rfl
  · exact .inl rfl
  · exact .inr rfl
  · exact takes.elim

namespace Frame

/-! A location is the value itself, or leads into the child that was put, or into another child. In
the last case nothing is new but the nulls that pad an array. -/

variable (h : Frame growth (v.childOrNull step) location new child) (takes : v.Takes step)
include h takes

/-- The clause `Frame.elsewhere`, one step further up. A location that parts from the way at this
step is kept by `at?_putChild_of_ne`. -/
theorem elsewhere_putChild (hw : v.at? other = some w) (hway : ¬other <+: step :: location)
    (hbelow : ¬step :: location <+: other) : (v.putChild step child).at? other = some w := by
  cases other with
  | nil => exact absurd List.nil_prefix hway
  | cons found rest =>
    by_cases hfound : found = step
    · subst hfound
      rw [List.prefix_cons_inj] at hway hbelow
      rw [Value.at?_putChild_self takes]
      exact h.elsewhere rest w (Value.at?_childOrNull hw) hway hbelow
    · exact Value.at?_putChild_of_ne takes hfound hw child

/-- The clause `Frame.kinds`, one step further up. -/
theorem kinds_putChild (hw : v.at? other = some w) (hbelow : ¬step :: location <+: other) :
    ∃ left, (v.putChild step child).at? other = some left ∧
      (left.kind = w.kind ∨ w = .null ∧ other <+: step :: location) := by
  cases other with
  | nil =>
    cases hw
    refine ⟨v.putChild step child, rfl, ?_⟩
    exact (Value.kind_putChild_or_null takes child).imp_right fun hnull => ⟨hnull, List.nil_prefix⟩
  | cons found rest =>
    by_cases hfound : found = step
    · subst hfound
      rw [List.prefix_cons_inj] at hbelow ⊢
      rw [Value.at?_putChild_self takes]
      exact h.kinds rest w (Value.at?_childOrNull hw) hbelow
    · exact ⟨w, Value.at?_putChild_of_ne takes hfound hw child, .inl rfl⟩

/-- The clause on the keys of objects, one step further up: the object above may have gained the
member that the step leads to, and those below are told by the frame below. -/
theorem members_putChild {members : List (String × Value)}
    (hat : (v.putChild step child).at? other = some (.object members))
    (hbelow : ¬step :: location <+: other) :
    Members.keys members = Members.keys (v.atOrNull other).members ∨
      ∃ name, other ++ [.key name] <+: step :: location ∧
        name ∉ Members.keys (v.atOrNull other).members ∧
        Members.keys members = Members.keys (v.atOrNull other).members ++ [name] := by
  cases other with
  | nil =>
    -- The object at hand is the one that the child was put into.
    replace hat : v.putChild step child = .object members := Option.some.inj hat
    have hkind := Value.kind_putChild_of_takes takes child
    rw [hat] at hkind
    cases step with
    | item place => cases hkind
    | key name =>
      rw [Value.atOrNull_nil, Value.keys_putChild takes hat]
      split
      · exact .inl rfl
      · next habsent => exact .inr ⟨name, ⟨location, rfl⟩, habsent, rfl⟩
  | cons found rest =>
    by_cases hfound : found = step
    · subst hfound
      rw [List.prefix_cons_inj] at hbelow
      rw [Value.at?_putChild_self takes] at hat
      simp only [List.cons_append, List.prefix_cons_inj, Value.atOrNull_cons]
      exact h.members rest members hat hbelow
    · obtain hold | ⟨-, -, -, hnull⟩ := Value.at?_putChild_cases takes hfound hat
      · rw [Value.atOrNull_of_at? hold]
        exact .inl rfl
      · cases hnull

/-- The clause on the lengths of arrays, one step further up. The array above may have been
lengthened up to the item that the step leads to, which there has to be room for. -/
theorem items_putChild (room : v.HasRoom growth step) {items : List Value}
    (hat : (v.putChild step child).at? other = some (.array items))
    (hbelow : ¬step :: location <+: other) :
    items.length = (v.atOrNull other).items.length ∨
      ∃ place, other ++ [.item place] <+: step :: location ∧
        (v.atOrNull other).items.length ≤ place ∧ items.length = place + 1 ∧
        items.length ≤ (v.atOrNull other).items.length + growth ∧
        ∀ pad < place, (v.atOrNull other).items.length ≤ pad → items[pad]? = some .null := by
  cases other with
  | nil =>
    -- The array at hand is the one that the child was put into.
    replace hat : v.putChild step child = .array items := Option.some.inj hat
    have hkind := Value.kind_putChild_of_takes takes child
    rw [hat] at hkind
    cases step with
    | key name => cases hkind
    | item place =>
      have hlength := Value.length_putChild takes hat
      have hroom := room place rfl
      rw [Value.atOrNull_nil]
      by_cases hplace : place < v.items.length
      · exact .inl (by omega)
      · refine .inr ⟨place, ⟨location, rfl⟩, by omega, by omega, by omega, ?_⟩
        intro pad hpad hold
        exact Value.padding_putChild takes hat hold hpad
  | cons found rest =>
    by_cases hfound : found = step
    · subst hfound
      rw [List.prefix_cons_inj] at hbelow
      rw [Value.at?_putChild_self takes] at hat
      simp only [List.cons_append, List.prefix_cons_inj, Value.atOrNull_cons]
      exact h.items rest items hat hbelow
    · obtain hold | ⟨-, -, -, hnull⟩ := Value.at?_putChild_cases takes hfound hat
      · rw [Value.atOrNull_of_at? hold]
        exact .inl rfl
      · cases hnull

/-- The clause on what is new, one step further up: it is on the way, in the new value, or a null
with which an array was lengthened. -/
theorem made_putChild (hat : (v.putChild step child).at? other = some w)
    (habsent : v.at? other = none) :
    other <+: step :: location ∨ step :: location <+: other ∨
      w = .null ∧ ∃ front place pad, other = front ++ [.item pad] ∧
        front ++ [.item place] <+: step :: location ∧ (v.atOrNull front).items.length ≤ pad ∧
        pad < place := by
  cases other with
  | nil => cases habsent
  | cons found rest =>
    by_cases hfound : found = step
    · subst hfound
      rw [Value.at?_putChild_self takes] at hat
      simp only [List.prefix_cons_inj]
      -- The child itself was missing, or something below it was.
      obtain rfl | hnone := Value.at?_childOrNull_eq_none habsent
      · exact .inl List.nil_prefix
      · refine (h.made rest w hat hnone).imp_right (Or.imp_right ?_)
        rintro ⟨hnull, front, place, pad, rfl, hplace, hold, hpad⟩
        refine ⟨hnull, found :: front, place, pad, rfl, ?_, ?_, hpad⟩
        · rwa [List.cons_append, List.prefix_cons_inj]
        · rwa [Value.atOrNull_cons]
    · obtain hold | ⟨hnone, hprecedes, rfl, hnull⟩ := Value.at?_putChild_cases takes hfound hat
      · rw [hold] at habsent
        cases habsent
      · -- Only an item is made beside another, in an array that was too short.
        obtain ⟨pad, place, rfl, rfl, hpad⟩ := Step.exists_of_precedes hprecedes
        refine .inr (.inr ⟨hnull, [], place, pad, rfl, ⟨location, rfl⟩, ?_, hpad⟩)
        rw [Value.atOrNull_nil]
        cases v with
        | array items => exact List.getElem?_eq_none_iff.1 hnone
        | _ => exact Nat.zero_le pad

/-- The frame of a child, seen from the value in which the child is put. -/
theorem putChild (room : v.HasRoom growth step) :
    Frame growth v (step :: location) new (v.putChild step child) where
  holds := by
    rw [Value.at?_putChild_self takes]
    exact h.holds
  elsewhere _ _ := h.elsewhere_putChild takes
  kinds _ _ := h.kinds_putChild takes
  members _ _ := h.members_putChild takes
  items _ _ := h.items_putChild takes room
  made _ _ := h.made_putChild takes

end Frame

end

/-! ### Assignments -/

/-- What one segment of an assignment that assigns anything does: it goes on in the child that it
leads to, or in a null if there is none, and puts in its place what comes of it. -/
structure Entered (growth : Nat) (edit : Value → Edited Value Nat) (segment : Segment)
    (v after : Value) (step : Step) : Prop where
  leads : segment.step? v = some step
  takes : v.Takes step
  room : v.HasRoom growth step
  goesOn : (edit (v.childOrNull step)).any
  value : after = v.putChild step (edit (v.childOrNull step)).value

section
variable {limits : Limits} {edit : Value → Edited Value Nat} {create : Bool} {v : Value}

/-- An assignment in a member that assigns anything has gone on in the member or in a null. -/
theorem exists_entered_of_assignMember {name : String}
    (h : (assignMember edit create name v).any) :
    ∃ step, Entered limits.maxArrayGrowth edit (.property name) v
      (assignMember edit create name v).value step := by
  cases v with
  | object members =>
    refine ⟨.key name, ?_⟩
    cases hchild : Members.get? members name with
    | some child =>
      have hnull : (Value.object members).childOrNull (.key name) = child :=
        Value.childOrNull_of_child? hchild
      simp only [assignMember, hchild] at h ⊢
      rw [← hnull] at h ⊢
      exact ⟨rfl, trivial, Value.hasRoom_key _ _ _, h, rfl⟩
    | none =>
      have hnull : (Value.object members).childOrNull (.key name) = .null := by
        rw [Value.childOrNull, Value.child?, hchild]
        rfl
      simp only [assignMember, hchild] at h ⊢
      rw [← hnull] at h ⊢
      cases create with
      | false => cases h
      | true => exact ⟨rfl, trivial, Value.hasRoom_key _ _ _, h, if_pos h⟩
  | _ => cases h

/-- An assignment in an item that assigns anything has gone on in the item or in a null. The limits
have not refused it, so that there is room for the item. -/
theorem exists_entered_of_assignItem {i : Int} (h : (assignItem edit create limits i v).any) :
    ∃ step, Entered limits.maxArrayGrowth edit (.index i) v
      (assignItem edit create limits i v).value step := by
  cases v with
  | array items =>
    cases hplace : resolveIndex items.length i with
    | none =>
      simp only [assignItem, hplace] at h
      cases h
    | some place =>
      have hstep : (Segment.index i).step? (.array items) = some (.item place) := by
        show (resolveIndex items.length i).map Step.item = _
        rw [hplace, Option.map_some]
      cases hitem : items[place]? with
      | some child =>
        obtain ⟨lt, -⟩ := List.getElem?_eq_some_iff.1 hitem
        have hnull : (Value.array items).childOrNull (.item place) = child :=
          Value.childOrNull_of_child? hitem
        have hroom : (Value.array items).HasRoom limits.maxArrayGrowth (.item place) := by
          rintro _ ⟨⟩
          exact Nat.lt_add_right limits.maxArrayGrowth lt
        simp only [assignItem, hplace, hitem] at h ⊢
        rw [← hnull] at h ⊢
        exact ⟨.item place, hstep, trivial, hroom, h, by rw [Value.putChild, if_pos lt]⟩
      | none =>
        have beyond : items.length ≤ place := List.getElem?_eq_none_iff.1 hitem
        -- The item is made, as a null in which the assignment goes on.
        have hnull : (Value.array items).childOrNull (.item place) = .null := by
          rw [Value.childOrNull, Value.child?, hitem]
          rfl
        simp only [assignItem, hplace, hitem] at h ⊢
        cases create with
        | false => cases h
        | true =>
          cases hgrowth : limits.refuses items.length place with
          | true =>
            simp only [hgrowth] at h
            cases h
          | false =>
            simp only [hgrowth, Bool.false_eq_true, if_false] at h ⊢
            have hroom : (Value.array items).HasRoom limits.maxArrayGrowth (.item place) := by
              rintro _ ⟨⟩
              exact Limits.lt_of_refuses_eq_false hgrowth
            replace h : (edit .null).any = true := h
            refine ⟨.item place, hstep, trivial, hroom, by rwa [hnull], ?_⟩
            rw [hnull, if_pos h, Value.putChild, if_neg (Nat.not_lt.2 beyond)]
            rfl
  | _ => cases h

end

section
variable {limits : Limits} {new v : Value} {segment : Segment} {rest : List Segment}

/-- A null stands for the empty container that the segment applies to. -/
theorem Entered.null {edit : Value → Edited Value Nat} {after : Value} {step : Step}
    (hsingle : segment.single)
    (h : Entered limits.maxArrayGrowth edit segment (containerFor segment) after step) :
    Entered limits.maxArrayGrowth edit segment .null after step := by
  obtain ⟨leads, takes, room, goesOn, value⟩ := h
  cases segment with
  | property name =>
    cases leads
    exact ⟨rfl, trivial, Value.hasRoom_key _ _ _, goesOn, value⟩
  | index i =>
    cases step with
    | key => exact takes.elim
    | item place =>
      refine ⟨leads, trivial, room, goesOn, value.trans ?_⟩
      simp [containerFor, Value.putChild, Value.childOrNull, Value.child?]
  | _ => cases hsingle

/-- One segment that leads to one child at most, for every kind of value. -/
theorem exists_entered_of_assign (hsingle : segment.single)
    (h : (assign limits new (segment :: rest) v).any) :
    ∃ step, Entered limits.maxArrayGrowth (assign limits new rest) segment v
      (assign limits new (segment :: rest) v).value step := by
  -- A null is told from the container that it becomes.
  have hcontainer {w : Value} (hw : w ≠ .null) (h : (assign limits new (segment :: rest) w).any) :
      ∃ step, Entered limits.maxArrayGrowth (assign limits new rest) segment w
        (assign limits new (segment :: rest) w).value step := by
    rw [assign_cons_of_ne_null hw] at h ⊢
    cases segment with
    | property name => exact exists_entered_of_assignMember h
    | index i => exact exists_entered_of_assignItem h
    | _ => cases hsingle
  by_cases hv : v = .null
  · subst hv
    rw [assign_null hsingle] at h ⊢
    split at h
    · next hany =>
      obtain ⟨step, hentered⟩ := hcontainer (containerFor_ne_null hsingle) hany
      rw [if_pos hany]
      exact ⟨step, hentered.null hsingle⟩
    · next hnone => exact absurd h hnone
  · exact hcontainer hv h

/-- An assignment along members and items that assigns anything has one target, and changes the
value as its frame says. -/
theorem exists_frame_of_assign {segments : List Segment} (hsingle : ∀ s ∈ segments, s.single)
    (h : (assign limits new segments v).any) :
    ∃ location, targetOf segments v = some location ∧
      Frame limits.maxArrayGrowth v location new (assign limits new segments v).value := by
  induction segments generalizing v with
  | nil => exact ⟨[], rfl, .nil limits.maxArrayGrowth v new⟩
  | cons segment rest ih =>
    obtain ⟨hsegment, hrest⟩ := List.forall_mem_cons.1 hsingle
    obtain ⟨step, leads, takes, room, goesOn, value⟩ := exists_entered_of_assign hsegment h
    obtain ⟨location, htarget, hframe⟩ := ih hrest goesOn
    refine ⟨step :: location, ?_, ?_⟩
    · rw [targetOf, leads, Option.bind_eq_bind, Option.bind_some, htarget]
      rfl
    · rw [value]
      exact hframe.putChild takes room

end

/-- A call to assign along members and items that succeeds puts the value at its target, and
changes nothing else but what the frame allows. -/
theorem Path.set_frame {path : Path} {limits : Limits} {root new left : Value}
    (hsingle : ∀ s ∈ path.segments, s.single)
    (h : path.set limits root new = ⟨left, .ok ()⟩) :
    ∃ location, targetOf path.segments root = some location ∧
      Frame limits.maxArrayGrowth root location new left := by
  obtain ⟨-, -, rfl, n, hn⟩ := Path.exists_assign_of_set h
  refine exists_frame_of_assign hsingle ?_
  rw [Edited.any_of_ok hn, decide_eq_true (Nat.succ_pos n)]

/-- The last item of an array has a null, which becomes an array of three items with an object in
the last of them. -/
theorem Path.set_frame_padded :
    ∃ path : Path, ∃ root left : Value, ∃ location, Path.compile "$.a[-1].b[2].c" = .ok path ∧
      root = .object [("a", .array [.null, .object [("b", .null)]])] ∧
      path.set ⟨0, 3, 16⟩ root (.bool true) = ⟨left, .ok ()⟩ ∧
      targetOf path.segments root = some location ∧
      location = [.key "a", .item 1, .key "b", .item 2, .key "c"] ∧
      Frame 3 root location (.bool true) left := by
  let path : Path := ⟨"$.a[-1].b[2].c",
    [.property "a", .index (-1), .property "b", .index 2, .property "c"]⟩
  let root : Value := .object [("a", .array [.null, .object [("b", .null)]])]
  have hpath : Path.compile "$.a[-1].b[2].c" = .ok path := by decide +kernel
  have hsingle : ∀ s ∈ path.segments, s.single := by simp [path, Segment.single]
  have hset : path.set ⟨0, 3, 16⟩ root (.bool true) = ⟨_, .ok ()⟩ := rfl
  obtain ⟨location, htarget, hframe⟩ := Path.set_frame hsingle hset
  have hlocation : some location = some [.key "a", .item 1, .key "b", .item 2, .key "c"] :=
    htarget.symm.trans rfl
  exact ⟨path, root, _, location, hpath, rfl, hset, htarget, Option.some.inj hlocation, hframe⟩

end JsonDoc
