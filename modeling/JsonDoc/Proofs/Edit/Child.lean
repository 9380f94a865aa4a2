import JsonDoc.Edit.Basic
import JsonDoc.Proofs.Select.Chain
import Mathlib.Data.List.Nodup

/-!
# `JsonDoc.Proofs.Edit.Child`: putting values in the places of children

An edit changes a document by putting other values in the places of children. `Value.putChild`
puts one where a step leads, and makes the place if there is none: a null stands for an empty
container, an absent member comes last, and an array that is too short is lengthened with nulls.
`Value.putAt` does so at a location, and `Value.withChildren` puts other values in the places of
all children at once.

The lemmas say what is then found at each step. Those on `withChildren` need the steps to the
children to differ, as they do in every document that is well formed.
-/

set_option autoImplicit false

namespace JsonDoc

/-- What is found at a key is one of the members. -/
theorem Members.mem_of_get? {α : Type} {members : Members α} {key : String} {a : α}
    (h : get? members key = some a) : (key, a) ∈ members := by
  obtain ⟨place, hat, -⟩ := get?_eq_some_iff.1 h
  exact List.mem_of_getElem? hat

/-- Each member is found at its key, if the keys differ. -/
theorem Members.get?_of_mem {α : Type} {members : Members α} {key : String} {a : α}
    (nodup : (keys members).Nodup) (h : (key, a) ∈ members) : get? members key = some a := by
  induction members with
  | nil => cases h
  | cons m rest ih =>
    obtain ⟨absent, nodup⟩ := List.nodup_cons.1 nodup
    rw [get?_cons]
    rcases List.mem_cons.1 h with rfl | h
    · rw [if_pos rfl]
    · have hne : m.1 ≠ key := by
        rintro rfl
        exact absent (List.mem_map.2 ⟨_, h, rfl⟩)
      rw [if_neg hne, ih nodup h]

/-- A value is only there after a value is put in if it was there before or is the new one. -/
theorem Members.mem_values_put {α : Type} {members : Members α} {key : String} {a b : α}
    (h : b ∈ values (put members key a)) : b = a ∨ b ∈ values members := by
  obtain ⟨m, mem, rfl⟩ := List.mem_map.1 h
  rw [put] at mem
  split at mem
  · obtain ⟨old, hold, rfl⟩ := List.mem_map.1 mem
    split
    · exact .inl rfl
    · exact .inr (List.mem_map_of_mem hold)
  · obtain hold | hnew := List.mem_append.1 mem
    · exact .inr (List.mem_map_of_mem hold)
    · rw [List.mem_singleton.1 hnew]
      exact .inl rfl

namespace Value

/-! ### Well-formed documents -/

attribute [simp] WellFormed WellFormedItems WellFormedMembers

/-- The recursion over the items, as a statement about every item. -/
theorem wellFormedItems_iff {items : List Value} :
    WellFormedItems items ↔ ∀ item ∈ items, item.WellFormed := by
  induction items with
  | nil => simp
  | cons item rest ih => simp [ih]

/-- The recursion over the members, as a statement about every value. -/
theorem wellFormedMembers_iff {members : List (String × Value)} :
    WellFormedMembers members ↔ ∀ item ∈ Members.values members, item.WellFormed := by
  induction members with
  | nil => simp [Members.values]
  | cons m rest ih =>
    obtain ⟨key, item⟩ := m
    simpa [Members.values] using fun _ => ih

/-- The children of a well-formed value are well formed. -/
theorem WellFormed.of_mem_children {v child : Value} (h : v.WellFormed)
    (mem : child ∈ v.children) : child.WellFormed := by
  cases v with
  | array items =>
    rw [WellFormed, wellFormedItems_iff] at h
    exact h child mem
  | object members =>
    rw [WellFormed, wellFormedMembers_iff] at h
    exact h.2 child mem
  | _ => cases mem

/-- The steps to the children differ from each other. -/
def StepsDiffer (v : Value) : Prop := (v.childNodes.map Prod.fst).Nodup

/-- The steps to the items are their places, in order. -/
theorem map_fst_childNodes_array (items : List Value) :
    (array items).childNodes.map Prod.fst = (List.range' 0 items.length).map Step.item := by
  rw [childNodes, List.map_map, ← List.zipIdx_map_snd 0 items, List.map_map]
  rfl

/-- The steps to the members are their keys, in order. -/
theorem map_fst_childNodes_object (members : List (String × Value)) :
    (object members).childNodes.map Prod.fst = (Members.keys members).map Step.key := by
  rw [childNodes, Members.keys, List.map_map, List.map_map]
  rfl

/-- For an object different steps are different keys. -/
theorem stepsDiffer_object {members : List (String × Value)} :
    (object members).StepsDiffer ↔ (Members.keys members).Nodup := by
  rw [StepsDiffer, map_fst_childNodes_object]
  exact List.nodup_map_iff fun _ _ => Step.key.inj

/-- For an array the steps differ whatever the items are. -/
theorem stepsDiffer_array (items : List Value) : (array items).StepsDiffer := by
  rw [StepsDiffer, map_fst_childNodes_array]
  exact List.Nodup.map (fun _ _ => Step.item.inj) List.nodup_range'

/-- In a well-formed value the steps to the children differ. -/
theorem WellFormed.stepsDiffer {v : Value} (h : v.WellFormed) : v.StepsDiffer := by
  cases v with
  | array items => exact stepsDiffer_array items
  | object members =>
    rw [WellFormed] at h
    exact stepsDiffer_object.2 h.1
  | _ => exact List.nodup_nil

/-! ### Children and their steps -/

/-- The child that a step leads to is listed under that step. -/
theorem mem_childNodes_of_child? {v child : Value} {step : Step} (h : v.child? step = some child) :
    (step, child) ∈ v.childNodes := by
  rw [child?.eq_def] at h
  split at h
  · exact List.mem_map.2 ⟨_, Members.mem_of_get? h, rfl⟩
  · exact List.mem_of_getElem? (getElem?_childNodes_array.2 ⟨rfl, h⟩)
  · cases h

/-- Where the steps differ, each leads to its child. -/
theorem child?_of_mem_childNodes {v child : Value} {step : Step} (differ : v.StepsDiffer)
    (h : (step, child) ∈ v.childNodes) : v.child? step = some child := by
  cases v with
  | array items =>
    obtain ⟨place, hplace⟩ := List.mem_iff_getElem?.1 h
    obtain ⟨rfl, hitem⟩ := getElem?_childNodes_array.1 hplace
    exact hitem
  | object members =>
    obtain ⟨m, mem, heq⟩ := List.mem_map.1 h
    cases heq
    exact Members.get?_of_mem (stepsDiffer_object.1 differ) mem
  | _ => cases h

/-- What a step leads to is one of the children. -/
theorem mem_children_of_child? {v child : Value} {step : Step} (h : v.child? step = some child) :
    child ∈ v.children := by
  rw [← childNodes_map_snd]
  exact List.mem_map_of_mem (f := Prod.snd) (mem_childNodes_of_child? h)

/-- The child that a step leads to is well formed if the value is. -/
theorem WellFormed.of_child? {v child : Value} {step : Step} (hv : v.WellFormed)
    (h : v.child? step = some child) : child.WellFormed :=
  hv.of_mem_children (mem_children_of_child? h)

/-- There is one step for each child. -/
theorem length_childNodes (v : Value) : v.childNodes.length = v.children.length := by
  rw [← childNodes_map_snd, List.length_map]

/-- A child stands among the children where it stands, with its step, among the nodes. -/
theorem getElem?_children_of_childNodes {v child : Value} {place : Nat} {step : Step}
    (h : v.childNodes[place]? = some (step, child)) : v.children[place]? = some child := by
  rw [← childNodes_map_snd, List.getElem?_map, h]
  rfl

/-- Each child has a step that leads to it. -/
theorem exists_step {v child : Value} {place : Nat} (h : v.children[place]? = some child) :
    ∃ step, v.childNodes[place]? = some (step, child) := by
  rw [← childNodes_map_snd, List.getElem?_map] at h
  obtain ⟨⟨step, _⟩, hnode, rfl⟩ := Option.map_eq_some_iff.1 h
  exact ⟨step, hnode⟩

/-- Each child is where some step leads. The steps have to differ: of two members with one key only
the first is found. -/
theorem exists_child?_of_mem_children {v child : Value} (differ : v.StepsDiffer)
    (mem : child ∈ v.children) : ∃ step, v.child? step = some child := by
  obtain ⟨place, hplace⟩ := List.mem_iff_getElem?.1 mem
  obtain ⟨step, hnode⟩ := exists_step hplace
  exact ⟨step, child?_of_mem_childNodes differ (List.mem_of_getElem? hnode)⟩

/-! ### Putting one child -/

/-- The value can have a child where the step leads; a null stands for an empty container. -/
def Takes : Value → Step → Prop
  | object _, .key _ => True
  | array _, .item _ => True
  | null, _ => True
  | _, _ => False

/-- The value with `child` where the step leads, in a new place if there is none. -/
def putChild (v : Value) (step : Step) (child : Value) : Value :=
  match v, step with
  | object members, .key name => object (Members.put members name child)
  | null, .key name => object [(name, child)]
  | array items, .item place =>
    array (if place < items.length then items.set place child
      else items ++ List.replicate (place - items.length) null ++ [child])
  | null, .item place => array (List.replicate place null ++ [child])
  | v, _ => v

/-- A value can have a child where it has one. -/
theorem takes_of_child? {v child : Value} {step : Step} (h : v.child? step = some child) :
    v.Takes step := by
  rw [child?.eq_def] at h
  split at h
  · trivial
  · trivial
  · cases h

/-- The child that was put is found where it was put. -/
theorem child?_putChild {v : Value} {step : Step} (h : v.Takes step) (child : Value) :
    (v.putChild step child).child? step = some child := by
  rw [Takes.eq_def] at h
  split at h
  · rw [putChild, child?, Members.get?_put, if_pos rfl]
  · next items place =>
    rw [putChild, child?]
    split
    · next lt => rw [List.getElem?_set_self lt]
    · next ge =>
      rw [List.getElem?_append_right (by simp; omega)]
      simp [show place - (items.length + (place - items.length)) = 0 by omega]
  · cases step with
    | key name => simp [putChild, child?, Members.get?]
    | item place => simp [putChild, child?]
  · exact h.elim

/-- Of two children put in one place the second stays. -/
theorem putChild_putChild {v : Value} {step : Step} (h : v.Takes step) (a b : Value) :
    (v.putChild step a).putChild step b = v.putChild step b := by
  rw [Takes.eq_def] at h
  split at h
  · rw [putChild, putChild, putChild, Members.put_put]
  · next items place =>
    rw [putChild, putChild, putChild]
    split
    · next lt => simp [lt]
    · next ge =>
      have hlt : place < (items ++ List.replicate (place - items.length) null ++ [a]).length := by
        simp
        omega
      rw [if_pos hlt, List.set_append_right _ _ (by simp; omega)]
      simp [show place - (items.length + (place - items.length)) = 0 by omega]
  · cases step with
    | key name => simp [putChild, Members.put, Members.has, Members.get?]
    | item place => simp [putChild]
  · exact h.elim

/-- Putting the child that is there changes nothing. -/
theorem putChild_child? {v child : Value} {step : Step} (differ : v.StepsDiffer)
    (h : v.child? step = some child) : v.putChild step child = v := by
  rw [child?.eq_def] at h
  split at h
  · rw [putChild, Members.put_eq_self (stepsDiffer_object.1 differ) h]
  · obtain ⟨lt, rfl⟩ := List.getElem?_eq_some_iff.1 h
    rw [putChild, if_pos lt, List.set_getElem_self]
  · cases h

/-- A child that is replaced leaves the others what they are. -/
theorem child?_putChild_of_ne {v old : Value} {step other : Step} (h : v.child? step = some old)
    (hne : other ≠ step) (child : Value) :
    (v.putChild step child).child? other = v.child? other := by
  rw [child?.eq_def] at h
  split at h
  · next name =>
    rw [putChild]
    cases other with
    | key name' =>
      rw [child?, child?, Members.get?_put, if_neg fun heq => hne (congrArg Step.key heq)]
    | item => rfl
  · next place =>
    obtain ⟨lt, -⟩ := List.getElem?_eq_some_iff.1 h
    rw [putChild, if_pos lt]
    cases other with
    | key => rfl
    | item place' =>
      rw [child?, child?, List.getElem?_set_ne fun heq => hne (congrArg Step.item heq.symm)]
  · cases h

/-- Replacing a child keeps the kind and, in an array, the number of items. -/
theorem kind_putChild {v old : Value} {step : Step} (h : v.child? step = some old) (child : Value) :
    (v.putChild step child).kind = v.kind := by
  rw [child?.eq_def] at h
  split at h
  · rfl
  · rfl
  · cases h

/-- Putting a child in place of another adds none. -/
theorem length_children_putChild {v old : Value} {step : Step} (h : v.child? step = some old)
    (child : Value) : (v.putChild step child).children.length = v.children.length := by
  rw [child?.eq_def] at h
  split at h
  · next members name =>
    have present : Members.has members name = true := by rw [Members.has, h]; rfl
    simp [putChild, children, Members.values, Members.put, present]
  · obtain ⟨lt, -⟩ := List.getElem?_eq_some_iff.1 h
    rw [putChild, if_pos lt, children, List.length_set]
    rfl
  · cases h

/-! ### Putting all children -/

/-- New children do not change the kind. -/
theorem kind_withChildren (v : Value) (items : List Value) :
    (v.withChildren items).kind = v.kind := by
  cases v <;> rfl

/-- The new children stand under the steps of the old ones. -/
theorem childNodes_withChildren {v : Value} {items : List Value}
    (h : items.length = v.children.length) :
    (v.withChildren items).childNodes = (v.childNodes.map Prod.fst).zip items := by
  apply List.ext_getElem?
  intro place
  rw [List.zip_eq_zipWith, List.getElem?_zipWith]
  cases v with
  | array old =>
    simp only [withChildren, childNodes, List.getElem?_map, List.getElem?_zipIdx]
    rw [children] at h
    rcases Nat.lt_or_ge place items.length with lt | ge
    · simp [lt, h ▸ lt]
    · simp [ge]
  | object members =>
    simp only [withChildren, childNodes, List.getElem?_map, List.getElem?_zipWith]
    cases members[place]? <;> cases items[place]? <;> rfl
  | _ => simp [withChildren, childNodes]

/-- There are as many steps as new children, if these are as many as the old ones. -/
theorem length_steps {v : Value} {items : List Value} (h : items.length = v.children.length) :
    (v.childNodes.map Prod.fst).length = items.length := by
  rw [List.length_map, length_childNodes, h]

/-- New children stand under the old steps, which still differ. -/
theorem StepsDiffer.withChildren {v : Value} (differ : v.StepsDiffer) {items : List Value}
    (h : items.length = v.children.length) : (v.withChildren items).StepsDiffer := by
  rwa [StepsDiffer, childNodes_withChildren h, List.map_fst_zip (Nat.le_of_eq (length_steps h))]

/-- The new children are the children. They have to be as many as before: keys are given to them in
pairs. -/
theorem children_withChildren {v : Value} {items : List Value}
    (h : items.length = v.children.length) : (v.withChildren items).children = items := by
  rw [← childNodes_map_snd, childNodes_withChildren h,
    List.map_snd_zip (Nat.le_of_eq (length_steps h).symm)]

/-- The new child at a place is found by the old step to that place. -/
theorem child?_withChildren {v old item : Value} {items : List Value} {place : Nat} {step : Step}
    (differ : v.StepsDiffer) (h : items.length = v.children.length)
    (hstep : v.childNodes[place]? = some (step, old)) (hitem : items[place]? = some item) :
    (v.withChildren items).child? step = some item := by
  apply child?_of_mem_childNodes (differ.withChildren h)
  apply List.mem_of_getElem? (i := place)
  rw [childNodes_withChildren h, List.getElem?_zip_eq_some, List.getElem?_map, hstep]
  exact ⟨rfl, hitem⟩

/-- Where a child was there is one of the others. -/
theorem exists_place_of_withChildren {v item : Value} {items : List Value} {step : Step}
    (h : items.length = v.children.length)
    (hitem : (v.withChildren items).child? step = some item) :
    ∃ (place : Nat) (old : Value), v.childNodes[place]? = some (step, old) ∧
      items[place]? = some item := by
  have mem := mem_childNodes_of_child? hitem
  rw [childNodes_withChildren h] at mem
  obtain ⟨place, hplace⟩ := List.mem_iff_getElem?.1 mem
  obtain ⟨hstep, hitem⟩ := List.getElem?_zip_eq_some.1 hplace
  obtain ⟨⟨_, old⟩, hnode, rfl⟩ :=
    Option.map_eq_some_iff.1 ((List.getElem?_map ..).symm.trans hstep)
  exact ⟨place, old, hnode, hitem⟩

/-- A value is put together from its own children unchanged. -/
theorem withChildren_self (v : Value) : v.withChildren v.children = v := by
  cases v with
  | object members =>
    rw [withChildren, children, Members.values, List.zipWith_map_right, List.zipWith_self]
    simp
  | _ => rfl

/-- Of two lists of new children the second stays. -/
theorem withChildren_withChildren {v : Value} {items : List Value}
    (h : items.length = v.children.length) (items' : List Value) :
    (v.withChildren items).withChildren items' = v.withChildren items' := by
  cases v with
  | object members =>
    rw [children, Members.values, List.length_map] at h
    rw [withChildren, withChildren, withChildren]
    congr 1
    apply List.ext_getElem?
    intro place
    rw [List.getElem?_zipWith, List.getElem?_zipWith, List.getElem?_zipWith]
    cases hmember : members[place]? with
    | none => rfl
    | some m =>
      obtain ⟨lt, -⟩ := List.getElem?_eq_some_iff.1 hmember
      rw [List.getElem?_eq_getElem (h ▸ lt)]
      cases items'[place]? <;> rfl
  | _ => rfl

/-- Children that are replaced one by one stand where they stood. -/
theorem childNodes_withChildren_map (v : Value) (f : Value → Value) :
    (v.withChildren (v.children.map f)).childNodes
      = v.childNodes.map fun node => (node.1, f node.2) := by
  rw [childNodes_withChildren (List.length_map f), ← childNodes_map_snd, List.map_map,
    List.zip_map']
  rfl

/-- Putting one child among all. -/
theorem putChild_withChildren {v old : Value} {items : List Value} {place : Nat} {step : Step}
    (differ : v.StepsDiffer) (h : items.length = v.children.length)
    (hstep : v.childNodes[place]? = some (step, old)) (child : Value) :
    (v.withChildren items).putChild step child = v.withChildren (items.set place child) := by
  obtain ⟨item, hitem⟩ : ∃ item, items[place]? = some item := by
    obtain ⟨lt, -⟩ := List.getElem?_eq_some_iff.1 hstep
    rw [length_childNodes, ← h] at lt
    exact ⟨_, List.getElem?_eq_getElem lt⟩
  have hfound := child?_withChildren differ h hstep hitem
  cases v with
  | array _ =>
    obtain ⟨rfl, -⟩ := getElem?_childNodes_array.1 hstep
    obtain ⟨lt, -⟩ := List.getElem?_eq_some_iff.1 hitem
    rw [withChildren, withChildren, putChild, if_pos lt]
  | object members =>
    obtain ⟨⟨key, _⟩, hmember, heq⟩ :=
      Option.map_eq_some_iff.1 ((List.getElem?_map ..).symm.trans hstep)
    cases heq
    have hkeys {place : Nat} {m : String × Value} (hm : members[place]? = some m) :
        (Members.keys members)[place]? = some m.1 := by
      rw [Members.keys, List.getElem?_map, hm]
      rfl
    have present :
        Members.has (List.zipWith (fun m item => (m.1, item)) members items) key = true := by
      rw [withChildren, child?] at hfound
      rw [Members.has, hfound]
      rfl
    rw [withChildren, withChildren, putChild, Members.put, if_pos present]
    congr 1
    apply List.ext_getElem?
    intro other
    rw [List.getElem?_map, List.getElem?_zipWith, List.getElem?_zipWith]
    -- The key stands at this place and at no other.
    by_cases hplace : place = other
    · subst hplace
      obtain ⟨lt, -⟩ := List.getElem?_eq_some_iff.1 hitem
      simp [hmember, hitem, List.getElem?_set_self lt]
    · rw [List.getElem?_set_ne hplace]
      cases hother : members[other]? with
      | none => rfl
      | some m =>
        have hne : m.1 ≠ key := by
          rintro rfl
          obtain ⟨lt, -⟩ := List.getElem?_eq_some_iff.1 (hkeys hmember)
          exact hplace ((List.getElem?_inj lt (stepsDiffer_object.1 differ)).1
            ((hkeys hmember).trans (hkeys hother).symm))
        cases items[other]? with
        | none => rfl
        | some item => simp [hne]
  | _ => cases hstep

/-! ### Locations -/

/-- A location can be followed in two parts. -/
theorem at?_append (v : Value) (location rest : Location) :
    v.at? (location ++ rest) = (v.at? location).bind fun w => w.at? rest := by
  induction location generalizing v with
  | nil => rfl
  | cons step location ih =>
    rw [List.cons_append, at?, at?]
    cases v.child? step with
    | none => rfl
    | some child => exact ih child

/-- One step leads to a child. -/
theorem at?_singleton (v : Value) (step : Step) : v.at? [step] = v.child? step := by
  rw [at?]
  cases v.child? step <;> rfl

/-- From the first child on the rest of the location is followed. -/
theorem at?_cons_of_child? {v child : Value} {step : Step} (h : v.child? step = some child)
    (location : Location) : v.at? (step :: location) = child.at? location := by
  rw [at?, h, Option.bind_some]

/-- Children are smaller, which rules out that a value stands in itself. -/
theorem sizeOf_lt_of_child? {v child : Value} {step : Step} (h : v.child? step = some child) :
    sizeOf child < sizeOf v := by
  rw [child?.eq_def] at h
  split at h
  · have hlt := List.sizeOf_lt_of_mem (Members.mem_of_get? h)
    simp only [Prod.mk.sizeOf_spec] at hlt
    simp only [object.sizeOf_spec]
    omega
  · have hlt := List.sizeOf_lt_of_mem (List.mem_of_getElem? h)
    simp only [array.sizeOf_spec]
    omega
  · cases h

/-- What stands in a value is no larger than it. -/
theorem sizeOf_le_of_at? {v w : Value} {location : Location} (h : v.at? location = some w) :
    sizeOf w ≤ sizeOf v := by
  induction location generalizing v with
  | nil =>
    cases h
    exact Nat.le_refl _
  | cons step location ih =>
    obtain ⟨child, hchild, h⟩ := Option.bind_eq_some_iff.1 h
    exact Nat.le_of_lt (Nat.lt_of_le_of_lt (ih h) (sizeOf_lt_of_child? hchild))

/-- No part of a value has the value itself as a child. -/
theorem child?_ne_self_of_at? {v w : Value} {location : Location} (h : v.at? location = some w)
    (step : Step) : w.child? step ≠ some v := by
  intro hchild
  have hlt := sizeOf_lt_of_child? hchild
  have hle := sizeOf_le_of_at? h
  omega

/-- The value with `new` at a location; nothing changes where the location leads nowhere. -/
def putAt (v : Value) (location : Location) (new : Value) : Value :=
  match location with
  | [] => new
  | step :: rest =>
    match v.child? step with
    | some child => v.putChild step (child.putAt rest new)
    | none => v

end Value

end JsonDoc
