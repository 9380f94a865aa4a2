import JsonDoc.Proofs.Value.Alike

/-!
# `JsonDoc.Proofs.Value.Counterparts`: alike documents stay alike

`Counterparts` are two well-formed values that are alike. Changing them at the same place, or
revising their children in the same way, leaves counterparts again (`Counterparts.putChild`,
`Counterparts.revise`); so whatever edits documents with these operations respects being alike.

For this the children of `Value.putChild` are told by their steps (`child?_putChild_eq`): the child
that was put, those that were there before, and the nulls that an array is lengthened with.
-/

set_option autoImplicit false

namespace JsonDoc

open Number

/-- The first step leads to an item before the one that the second leads to. -/
def Step.precedes : Step → Step → Bool
  | .item place, .item later => place < later
  | _, _ => false

/-- The kind of value that has children under such steps. -/
def Step.container : Step → Kind
  | .key _ => .object
  | .item _ => .array

/-- The values of an object, each replaced or dropped. -/
theorem Members.get?_filterMap {α : Type} {members : Members α} (nodup : (keys members).Nodup)
    (f : String → α → Option α) (key : String) :
    get? (members.filterMap fun m => (f m.1 m.2).map (m.1, ·)) key
      = (get? members key).bind (f key) := by
  induction members with
  | nil => rfl
  | cons m rest ih =>
    obtain ⟨absent, nodup⟩ := List.nodup_cons.1 nodup
    rw [List.filterMap_cons, get?_cons]
    by_cases hkey : m.1 = key
    · subst hkey
      -- No later member has the key, so that dropping this one leaves none.
      have hrest : get? rest m.1 = none := by
        by_contra hne
        exact absent (has_iff_mem_keys.1 (Option.isSome_iff_ne_none.2 hne))
      rw [if_pos rfl, Option.bind_some]
      cases hf : f m.1 m.2 with
      | none => rw [Option.map_none, ih nodup, hrest, Option.bind_none]
      | some a => rw [Option.map_some, get?_cons, if_pos rfl]
    · rw [if_neg hkey]
      cases f m.1 m.2 with
      | none => exact ih nodup
      | some a => rw [Option.map_some, get?_cons, if_neg hkey, ih nodup]

namespace Value

section
variable {same : Binary64 → Binary64 → Prop} {v w child other : Value} {step : Step}

/-- What is found where a child was put, and elsewhere. -/
theorem child?_putChild_eq (h : v.Takes step) (child : Value) (found : Step) :
    (v.putChild step child).child? found =
      if found = step then some child
      else (v.child? found).or (if found.precedes step then some null else none) := by
  by_cases heq : found = step
  · rw [if_pos heq, heq, child?_putChild h]
  · rw [if_neg heq]
    rw [Takes.eq_def] at h
    split at h
    · -- A member is put beside the others, and pads nothing.
      next members name =>
      cases found with
      | key name' =>
        have hne : name' ≠ name := fun hname => heq (congrArg Step.key hname)
        rw [putChild, child?, Members.get?_put, if_neg hne, child?]
        simp [Step.precedes]
      | item => rfl
    · -- An item that is put beyond the end has nulls in front of it.
      next items place =>
      cases found with
      | key => rfl
      | item place' =>
        have hne : place' ≠ place := fun hplace => heq (congrArg Step.item hplace)
        rw [putChild, child?, child?, Step.precedes]
        split
        · next lt => grind
        · next ge => grind
    · cases step with
      | key name => cases found with
        | key name' =>
          have hne : name ≠ name' := fun hname => heq (congrArg Step.key hname.symm)
          rw [putChild, child?, Members.get?_cons, if_neg hne]
          rfl
        | item => rfl
      | item place => cases found with
        | key => rfl
        | item place' =>
          have hne : place' ≠ place := fun hplace => heq (congrArg Step.item hplace)
          have hnone : (null : Value).child? (.item place') = none := rfl
          rw [putChild, hnone, child?, Step.precedes]
          grind
    · exact h.elim

/-- Putting a child makes a container of the kind that the step needs. -/
theorem kind_putChild_of_takes (h : v.Takes step) (child : Value) :
    (v.putChild step child).kind = step.container := by
  rw [Takes.eq_def] at h
  split at h
  · rfl
  · rfl
  · cases step <;> rfl
  · exact h.elim

/-- Containers of one kind have the same head. -/
theorem sameHead_of_kind (hkind : v.kind = w.kind) (h : v.kind = .array ∨ v.kind = .object) :
    SameHead same v w := by
  cases v <;> cases w <;> simp_all [kind, SameHead]

/-- A value is well formed if the steps to its children differ and its children are well formed. -/
theorem wellFormed_iff : v.WellFormed ↔ v.StepsDiffer ∧ ∀ child ∈ v.children, child.WellFormed := by
  refine ⟨fun h => ⟨h.stepsDiffer, fun child => h.of_mem_children⟩, ?_⟩
  rintro ⟨hdiffer, hchildren⟩
  cases v with
  | array items => exact wellFormedItems_iff.2 hchildren
  | object members =>
    exact ⟨stepsDiffer_object.1 hdiffer, wellFormedMembers_iff.2 hchildren⟩
  | _ => trivial

/-- After a child is put in, the children are the new one, the old ones, and the nulls with which an
array is lengthened. -/
theorem mem_children_putChild_of_takes (h : v.Takes step)
    (mem : other ∈ (v.putChild step child).children) :
    other = child ∨ other ∈ v.children ∨ other = null := by
  rw [Takes.eq_def] at h
  split at h
  · exact (Members.mem_values_put mem).imp_right .inl
  · rw [putChild, children] at mem
    split at mem
    · exact (List.mem_or_eq_of_mem_set mem).symm.imp_right .inl
    · simp only [List.mem_append, List.mem_replicate, List.mem_singleton] at mem
      tauto
  · cases step with
    | key name => exact .inl (List.mem_singleton.1 mem)
    | item place =>
      simp only [putChild, children, List.mem_append, List.mem_replicate, List.mem_singleton] at mem
      tauto
  · exact h.elim

/-- Putting a well-formed child in keeps a value well formed. -/
theorem WellFormed.putChild (hv : v.WellFormed) (hchild : child.WellFormed) (h : v.Takes step) :
    (v.putChild step child).WellFormed := by
  refine wellFormed_iff.2 ⟨?_, fun other mem => ?_⟩
  · rw [Takes.eq_def] at h
    split at h
    · exact stepsDiffer_object.2 (Members.nodup_keys_put (stepsDiffer_object.1 hv.stepsDiffer))
    · exact stepsDiffer_array _
    · cases step with
      | key name => exact stepsDiffer_object.2 (List.nodup_singleton name)
      | item place => exact stepsDiffer_array _
    · exact h.elim
  · obtain rfl | hold | rfl := mem_children_putChild_of_takes h mem
    · exact hchild
    · exact hv.of_mem_children hold
    · trivial

/-- Of values that are alike both can have a child under a step or neither. -/
theorem Alike.takes (h : Alike same v w) (hv : v.Takes step) : w.Takes step := by
  have hkind := h.kind_eq
  cases v <;> cases w <;> cases hkind <;> first | exact hv | cases step <;> exact hv

/-- A null has no children, so that nothing below it can differ. -/
theorem alike_null : Alike same null null := alike_iff.2 ⟨trivial, fun _ => .none⟩

/-- Putting like children in the same place of like values leaves them alike. -/
theorem Alike.putChild (h : Alike same v w) (hv : v.Takes step) (hchild : Alike same child other) :
    Alike same (v.putChild step child) (w.putChild step other) := by
  have hw := h.takes hv
  refine alike_iff.2 ⟨?_, fun found => ?_⟩
  · have hkind := kind_putChild_of_takes hv child
    refine sameHead_of_kind ?_ ?_
    · rw [hkind, kind_putChild_of_takes hw other]
    · rw [hkind]
      cases step <;> simp [Step.container]
  · rw [child?_putChild_eq hv, child?_putChild_eq hw]
    split
    · exact .some hchild
    · have hfound := h.child? found
      cases hold : v.child? found with
      | some old =>
        obtain ⟨old', hold', halike⟩ := exists_of_rel_some hfound hold
        rw [hold']
        exact .some halike
      | none =>
        rw [eq_none_of_rel hfound hold]
        split
        · -- Padding is padding in both.
          exact .some alike_null
        · exact .none

/-! ### Counterparts -/

/-- Two well-formed values that are alike. -/
structure Counterparts (same : Binary64 → Binary64 → Prop) (v w : Value) : Prop where
  alike : Alike same v w
  left : v.WellFormed
  right : w.WellFormed

namespace Counterparts

/-- A step leads to counterparts, or nowhere in both. -/
theorem rel_child? (h : Counterparts same v w) (step : Step) :
    Option.Rel (Counterparts same) (v.child? step) (w.child? step) := by
  cases hv : v.child? step with
  | none =>
    rw [eq_none_of_rel (h.alike.child? step) hv]
    exact .none
  | some child =>
    obtain ⟨other, hw, halike⟩ := h.alike.exists_child? hv
    rw [hw]
    exact .some ⟨halike, h.left.of_child? hv, h.right.of_child? hw⟩

/-- Well-formed values with the same head and with counterparts under every step are
counterparts. -/
theorem of_children (hhead : SameHead same v w) (hv : v.WellFormed) (hw : w.WellFormed)
    (h : ∀ step, Option.Rel (Counterparts same) (v.child? step) (w.child? step)) :
    Counterparts same v w :=
  ⟨alike_iff.2 ⟨hhead, fun step => rel_imp (h step) fun _ _ => alike⟩, hv, hw⟩

/-- Counterparts are of one kind. -/
theorem kind_eq (h : Counterparts same v w) : v.kind = w.kind := h.alike.kind_eq

/-- Both counterparts are null or neither is. -/
theorem eq_null_iff (h : Counterparts same v w) : v = .null ↔ w = .null := by
  have hkind := h.kind_eq
  cases v <;> cases w <;> cases hkind <;> simp

/-- Two nulls. -/
theorem null : Counterparts same null null := ⟨alike_null, trivial, trivial⟩

/-- Two empty objects. -/
theorem emptyObject : Counterparts same (object []) (object []) :=
  ⟨alike_object_iff.2 fun _ => .none, by simp [Members.keys], by simp [Members.keys]⟩

/-- Two empty arrays. -/
theorem emptyArray : Counterparts same (array []) (array []) :=
  ⟨alike_array_iff.2 .nil, trivial, trivial⟩

/-- The children of counterparts are counterparts under the same steps, up to the order of
members. -/
theorem permuted_childNodes (h : Counterparts same v w) :
    Permuted (fun node other => node.1 = other.1 ∧ Counterparts same node.2 other.2) v.childNodes
      w.childNodes := by
  refine (h.alike.permuted_childNodes h.left.stepsDiffer h.right.stepsDiffer).imp ?_
  rintro node mem other mem' ⟨hstep, halike⟩
  exact ⟨hstep, halike, h.left.of_mem_children (mem_children_of_mem_childNodes mem),
    h.right.of_mem_children (mem_children_of_mem_childNodes mem')⟩

/-- The children of counterparts are counterparts up to their order. -/
theorem permuted_children (h : Counterparts same v w) :
    Permuted (Counterparts same) v.children w.children := by
  rw [← childNodes_map_snd, ← childNodes_map_snd]
  exact h.permuted_childNodes.map fun _ _ => And.right

/-- Counterparts put in under the same step leave counterparts. -/
theorem putChild (h : Counterparts same v w) (htakes : v.Takes step)
    (hchild : Counterparts same child other) :
    Counterparts same (v.putChild step child) (w.putChild step other) :=
  ⟨h.alike.putChild htakes hchild.alike, h.left.putChild hchild.left htakes,
    h.right.putChild hchild.right (h.alike.takes htakes)⟩

/-- Arrays with counterparts are equally long, so that indices resolve alike. -/
theorem length_items {items others : List Value}
    (h : Counterparts same (array items) (array others)) : items.length = others.length :=
  (alike_array_iff.1 h.alike).length_eq

/-- The items of arrays with counterparts, revised place by place. -/
theorem forall₂_revised {items others : List Value} {f g : Step × Value → Option Value}
    (h : Counterparts same (array items) (array others))
    (hrel : ∀ {step child other}, (array items).child? step = some child →
      (array others).child? step = some other →
        Option.Rel (Counterparts same) (f (step, child)) (g (step, other))) :
    List.Forall₂ (fun node other => Option.Rel (Counterparts same) (f node) (g other))
      (array items).childNodes (array others).childNodes := by
  refine forall₂_iff_getElem?.2 fun place => ?_
  simp only [childNodes, List.getElem?_map, List.getElem?_zipIdx]
  cases hitem : items[place]? with
  | none =>
    rw [show others[place]? = none from eq_none_of_rel (h.rel_child? (.item place)) hitem]
    exact .none
  | some item =>
    obtain ⟨other, hother, -⟩ := exists_of_rel_some (h.rel_child? (.item place)) hitem
    rw [show others[place]? = some other from hother]
    refine .some ?_
    rw [Nat.zero_add]
    exact hrel hitem hother

/-- The members of objects with counterparts, revised and looked up key by key. -/
theorem rel_get?_revised {members others : List (String × Value)}
    {f g : Step × Value → Option Value} (h : Counterparts same (object members) (object others))
    (hrel : ∀ {step child other}, (object members).child? step = some child →
      (object others).child? step = some other →
        Option.Rel (Counterparts same) (f (step, child)) (g (step, other))) (key : String) :
    Option.Rel (Counterparts same)
      (Members.get? (members.filterMap fun m => (f (.key m.1, m.2)).map (m.1, ·)) key)
      (Members.get? (others.filterMap fun m => (g (.key m.1, m.2)).map (m.1, ·)) key) := by
  have hget := h.rel_child? (.key key)
  rw [child?, child?] at hget
  rw [Members.get?_filterMap (stepsDiffer_object.1 h.left.stepsDiffer)
      (fun key item => f (.key key, item)),
    Members.get?_filterMap (stepsDiffer_object.1 h.right.stepsDiffer)
      (fun key item => g (.key key, item))]
  cases hchild : Members.get? members key with
  | none =>
    rw [eq_none_of_rel hget hchild]
    exact .none
  | some child =>
    obtain ⟨other, hother, -⟩ := exists_of_rel_some hget hchild
    rw [hother]
    exact @hrel (.key key) child other hchild hother

/-- The children of both revised in the same way. -/
theorem revise {f g : Step × Value → Option Value} (h : Counterparts same v w)
    (hfg : ∀ step child other, (step, child) ∈ v.childNodes → (step, other) ∈ w.childNodes →
      Counterparts same child other →
      Option.Rel (Counterparts same) (f (step, child)) (g (step, other))) :
    Counterparts same (v.revise f) (w.revise g) := by
  have hrel : ∀ {step child other}, v.child? step = some child → w.child? step = some other →
      Option.Rel (Counterparts same) (f (step, child)) (g (step, other)) := by
    intro step child other hv hw
    obtain ⟨other', hw', hother⟩ := exists_of_rel_some (h.rel_child? step) hv
    cases hw.symm.trans hw'
    exact hfg step child other (mem_childNodes_of_child? hv) (mem_childNodes_of_child? hw) hother
  have hv : (v.revise f).WellFormed := by
    refine h.left.revise fun node mem left hleft => ?_
    have hchild := child?_of_mem_childNodes h.left.stepsDiffer mem
    obtain ⟨other, hother, -⟩ := exists_of_rel_some (h.rel_child? node.1) hchild
    obtain ⟨right, -, hright⟩ := exists_of_rel_some (hrel hchild hother) hleft
    exact hright.left
  have hw : (w.revise g).WellFormed := by
    refine h.right.revise fun node mem right hright => ?_
    have hother := child?_of_mem_childNodes h.right.stepsDiffer mem
    obtain ⟨child, hchild, -⟩ := exists_of_rel_some_right (h.rel_child? node.1) hother
    obtain ⟨left, -, hleft⟩ := exists_of_rel_some_right (hrel hchild hother) hright
    exact hleft.right
  have hkind := h.kind_eq
  cases v with
  | array items =>
    cases w with
    | array others =>
      refine ⟨alike_array_iff.2 ?_, hv, hw⟩
      refine List.rel_filterMap (fun node other hnode => ?_) (h.forall₂_revised hrel)
      exact rel_imp hnode fun _ _ => alike
    | _ => cases hkind
  | object members =>
    cases w with
    | object others =>
      refine of_children trivial hv hw fun step => ?_
      cases step with
      | item => exact .none
      | key key =>
        rw [Value.revise, Value.revise]
        exact h.rel_get?_revised hrel key
    | _ => cases hkind
  | _ =>
    cases w with
    | array | object => cases hkind
    | _ => exact h

end Counterparts

end

end Value

end JsonDoc
