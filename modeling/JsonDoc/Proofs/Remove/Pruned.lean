import JsonDoc.Proofs.Remove.Without

/-!
# `JsonDoc.Proofs.Remove.Pruned`: values that have lost parts

`Value.Pruned` relates a value to what is left of it when some of its parts are taken out, whatever
they are. It is put together from what is left of each child (`Value.Prunes.pruned`), so that an
edit which goes down to single children need not say which locations it takes out.

With the flag `shifts` arrays may have lost items, and the other items have moved to the front.
Without it every part that is left stands where it stood.
-/

set_option autoImplicit false

namespace JsonDoc

/-- The second value is the first without some of its parts; these are no items of arrays unless
`shifts` holds. -/
def Value.Pruned (shifts : Bool) (v w : Value) : Prop :=
  ∃ gone : Location → Bool,
    (shifts = false → ∀ location i, gone (location ++ [.item i]) = false) ∧ w = v.without gone

/-- Each child that is left has lost some of its parts, and items are all left unless `shifts`
holds. -/
structure Value.Prunes (shifts : Bool) (f : Step × Value → Option Value) (v : Value) : Prop where
  child : ∀ node ∈ v.childNodes, ∀ w, f node = some w → Pruned shifts node.2 w
  keeps : shifts = false → ∀ node ∈ v.childNodes, ∀ i, node.1 = .item i → f node ≠ none

section
variable {shifts : Bool} {u v w : Value} {f : Step × Value → Option Value}

/-- A value has lost none of its parts. -/
theorem Value.Pruned.refl (shifts : Bool) (v : Value) : v.Pruned shifts v :=
  ⟨fun _ => false, fun _ _ _ => rfl, (without_eq_self fun _ _ => rfl).symm⟩

/-- What is left of a well-formed value is well formed. -/
theorem Value.Pruned.wellFormed (h : v.Pruned shifts w) (hv : v.WellFormed) : w.WellFormed := by
  obtain ⟨gone, -, rfl⟩ := h
  exact hv.without gone

/-- A location that ends with an item still does once others are gone. -/
theorem Value.exists_locationAfter_append (gone : Location → Bool) (location : Location) (i : Nat) :
    ∃ before j, locationAfter gone (location ++ [.item i]) = before ++ [.item j] := by
  induction location generalizing gone with
  | nil => exact ⟨[], _, rfl⟩
  | cons step rest ih =>
    obtain ⟨before, j, h⟩ := ih (goneBelow gone step)
    exact ⟨stepAfter gone step :: before, j, by rw [List.cons_append, locationAfter, h]; rfl⟩

/-- What is left of what is left is left of the value: the parts that are gone can be told at once,
as seen at first. -/
theorem Value.Pruned.trans (h : u.Pruned shifts v) (h' : v.Pruned shifts w) :
    u.Pruned shifts w := by
  obtain ⟨gone, hgone, rfl⟩ := h
  obtain ⟨next, hnext, rfl⟩ := h'
  refine ⟨goneTwice gone next, fun hshifts location i => ?_, without_without gone next u⟩
  obtain ⟨before, j, hafter⟩ := exists_locationAfter_append gone location i
  rw [goneTwice, hafter, hgone hshifts, hnext hshifts, Bool.or_false]

/-- A value that has lost parts is revised, so that it can be taken apart child by child. -/
theorem Value.Pruned.exists_prunes (h : v.Pruned shifts w) :
    ∃ f, v.Prunes shifts f ∧ w = v.revise f := by
  obtain ⟨gone, hgone, rfl⟩ := h
  refine ⟨_, ⟨fun node mem w hw => ?_, fun hshifts node mem i hi => ?_⟩, without_eq gone v⟩
  · split at hw
    · cases hw
    · cases hw
      exact ⟨_, fun hshifts location i => hgone hshifts (node.1 :: location) i, rfl⟩
  · have hkept : gone [node.1] = false := by
      rw [hi]
      exact hgone hshifts [] i
    rw [hkept]
    exact Option.some_ne_none _

/-- What is gone of a value that is revised, from what is gone of each child. -/
def Value.goneOf (f : Step × Value → Option Value) (below : Step × Value → Location → Bool)
    (v : Value) : Location → Bool
  | [] => false
  | step :: rest =>
    match v.child? step with
    | none => false
    | some child =>
      match f (step, child) with
      | none => rest.isEmpty
      | some _ => !rest.isEmpty && below (step, child) rest

/-- What is gone at and below one child. The steps differ, so that the child is the one that its
step leads to. -/
theorem Value.goneOf_childNode (differ : v.StepsDiffer) {node : Step × Value}
    (mem : node ∈ v.childNodes) (below : Step × Value → Location → Bool) (rest : Location) :
    v.goneOf f below (node.1 :: rest)
      = match f node with
        | none => rest.isEmpty
        | some _ => !rest.isEmpty && below node rest := by
  rw [goneOf, child?_of_mem_childNodes differ mem]

/-- Taking out what a revision drops, and what is gone below the children that it keeps, is the
revision. -/
theorem Value.without_goneOf (differ : v.StepsDiffer) {below : Step × Value → Location → Bool}
    (hbelow : ∀ node ∈ v.childNodes, ∀ w, f node = some w → w = node.2.without (below node)) :
    v.without (v.goneOf f below) = v.revise f := by
  rw [without_eq]
  refine revise_congr fun node mem => ?_
  rw [goneOf_childNode differ mem]
  cases hf : f node with
  | none => rfl
  | some w =>
    rw [hbelow node mem w hf]
    refine congrArg some (without_congr fun step rest => ?_)
    rw [goneBelow, goneOf_childNode differ mem, hf]
    rfl

/-- No item is gone if none is gone here, nor below a child. -/
theorem Value.goneOf_append_item {below : Step × Value → Location → Bool}
    (here : ∀ node ∈ v.childNodes, ∀ i, node.1 = .item i → f node ≠ none)
    (hbelow : ∀ node ∈ v.childNodes, ∀ w, f node = some w →
      ∀ location i, below node (location ++ [.item i]) = false) (location : Location) (i : Nat) :
    v.goneOf f below (location ++ [.item i]) = false := by
  cases location with
  | nil =>
    rw [List.nil_append, goneOf]
    split
    · rfl
    · next child hchild =>
      split
      · next hf => exact absurd hf (here _ (mem_childNodes_of_child? hchild) i rfl)
      · rfl
  | cons step rest =>
    rw [List.cons_append, goneOf]
    split
    · rfl
    · next child hchild =>
      split
      · simp
      · next w hw =>
        rw [hbelow _ (mem_childNodes_of_child? hchild) w hw rest i, Bool.and_false]

/-- Values that are pruned child by child are pruned. -/
theorem Value.Prunes.pruned (h : v.Prunes shifts f) (differ : v.StepsDiffer) :
    v.Pruned shifts (v.revise f) := by
  have hchild (node : Step × Value) : ∃ gone : Location → Bool, node ∈ v.childNodes →
      ∀ w, f node = some w → (shifts = false → ∀ location i, gone (location ++ [.item i]) = false) ∧
        w = node.2.without gone := by
    by_cases hnode : node ∈ v.childNodes ∧ ∃ w, f node = some w
    · obtain ⟨mem, w, hw⟩ := hnode
      obtain ⟨gone, hgone⟩ := h.child node mem w hw
      refine ⟨gone, fun _ w' hw' => ?_⟩
      rw [hw] at hw'
      cases hw'
      exact hgone
    · exact ⟨fun _ => false, fun mem w hw => absurd ⟨mem, w, hw⟩ hnode⟩
  choose below hbelow using hchild
  refine ⟨v.goneOf f below, fun hshifts => ?_, ?_⟩
  · exact goneOf_append_item (h.keeps hshifts) fun node mem w hw => (hbelow node mem w hw).1 hshifts
  · exact (without_goneOf differ fun node mem w hw => (hbelow node mem w hw).2).symm

end

end JsonDoc
