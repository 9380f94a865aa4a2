import JsonDoc.Proofs.Value.Counterparts
import JsonDoc.Proofs.Value.Depth

/-!
# `JsonDoc.Proofs.Value.Pointwise`: changing every node in place

A pointwise function changes a document node by node and leaves every node where it is: it keeps the
kind of a value, and each step leads to what the function makes of the child that was there. A
function is pointwise if it works on the parts of each container, even if members change their order
(`pointwise_of_parts`), as a member is found under its key wherever it stands.

So a location leads to what the function makes of the node there (`Pointwise.at?`), the document
stays well formed and gets no deeper, and it is alike to the old one if the head of every node is
the same (`Pointwise.alike`).
-/

set_option autoImplicit false

namespace JsonDoc

open Number

/-- Look-up after a change of all values. -/
theorem Members.get?_map_values {α β : Type} (f : α → β) (members : Members α) (key : String) :
    get? (members.map fun m => (m.1, f m.2)) key = (get? members key).map f := by
  induction members with
  | nil => rfl
  | cons m rest ih =>
    rw [List.map_cons, get?_cons, get?_cons, ih]
    split <;> rfl

/-- Look-up does not depend on the order, if the keys differ. -/
theorem Members.get?_eq_of_perm {α : Type} {members others : Members α}
    (nodup : (keys members).Nodup) (hperm : members.Perm others) (key : String) :
    get? members key = get? others key := by
  have hothers : (keys others).Nodup := (hperm.map Prod.fst).nodup_iff.1 nodup
  refine Option.ext fun a => ⟨fun h => ?_, fun h => ?_⟩
  · exact get?_of_mem hothers (hperm.mem_iff.1 (mem_of_get? h))
  · exact get?_of_mem nodup (hperm.mem_iff.2 (mem_of_get? h))

/-- A permutation of members with changed values has the same keys in another order. -/
theorem Members.perm_keys_of_perm_map {α β : Type} {f : α → β} {members : Members α}
    {others : Members β} (hperm : others.Perm (members.map fun m => (m.1, f m.2))) :
    (keys others).Perm (keys members) := by
  have hkeys := hperm.map Prod.fst
  rwa [List.map_map] at hkeys

namespace Value

/-- A node of a well-formed document is well formed. -/
theorem WellFormed.of_at? {v node : Value} {location : Location} (hv : v.WellFormed)
    (h : v.at? location = some node) : node.WellFormed := by
  induction location generalizing v with
  | nil =>
    cases h
    exact hv
  | cons step location ih =>
    obtain ⟨child, hchild, hnode⟩ := Option.bind_eq_some_iff.1 h
    exact ih (hv.of_child? hchild) hnode

/-- The function changes the nodes of a well-formed document one by one, each in its place. -/
structure Pointwise (f : Value → Value) : Prop where
  kind_eq : ∀ v, (f v).kind = v.kind
  child? : ∀ {v : Value}, v.WellFormed → ∀ step, (f v).child? step = (v.child? step).map f
  stepsDiffer : ∀ {v : Value}, v.WellFormed → (f v).StepsDiffer

/-- Leaving a value as it is is pointwise. -/
theorem pointwise_id : Pointwise id where
  kind_eq _ := rfl
  child? {v} _ step := (congrFun Option.map_id (v.child? step)).symm
  stepsDiffer hv := hv.stepsDiffer

/-- A value of the kind of a scalar has no children. -/
theorem childNodes_eq_nil_of_kind {v w : Value} (hkind : w.kind = v.kind) (hv : v.depth = 0) :
    w.childNodes = [] := by
  rw [depth_eq_zero_iff, ← hkind] at hv
  cases w with
  | array => exact absurd rfl hv.1
  | object => exact absurd rfl hv.2
  | _ => rfl

/-- Without children no step leads anywhere. -/
theorem child?_eq_none {v : Value} (h : v.childNodes = []) (step : Step) :
    v.child? step = none := by
  cases hchild : v.child? step with
  | none => rfl
  | some child =>
    have mem := mem_childNodes_of_child? hchild
    rw [h] at mem
    cases mem

/-- A function that works on the parts of a container, members possibly in another order. -/
theorem pointwise_of_parts {f : Value → Value} (hkind : ∀ v, (f v).kind = v.kind)
    (harray : ∀ items, f (array items) = array (items.map f))
    (hobject : ∀ members, ∃ others, f (object members) = object others ∧
      others.Perm (members.map fun m => (m.1, f m.2))) : Pointwise f where
  kind_eq := hkind
  child? {v} hv step := by
    cases v with
    | array items =>
      rw [harray]
      cases step with
      | key => rfl
      | item place => exact List.getElem?_map
    | object members =>
      obtain ⟨others, heq, hperm⟩ := hobject members
      rw [heq]
      cases step with
      | key name =>
        -- Keys differ, so that the order of the members does not matter for look-up.
        have nodup := (Members.perm_keys_of_perm_map hperm).nodup_iff.2
          (stepsDiffer_object.1 hv.stepsDiffer)
        exact (Members.get?_eq_of_perm nodup hperm name).trans
          (Members.get?_map_values f members name)
      | item => rfl
    | _ => exact child?_eq_none (childNodes_eq_nil_of_kind (hkind _) rfl) step
  stepsDiffer {v} hv := by
    cases v with
    | array items =>
      rw [harray]
      exact stepsDiffer_array _
    | object members =>
      obtain ⟨others, heq, hperm⟩ := hobject members
      rw [heq, stepsDiffer_object]
      exact (Members.perm_keys_of_perm_map hperm).nodup_iff.2
        (stepsDiffer_object.1 hv.stepsDiffer)
    | _ =>
      rw [StepsDiffer, childNodes_eq_nil_of_kind (hkind _) rfl]
      exact List.nodup_nil

namespace Pointwise

variable {f : Value → Value} {v : Value}

/-- Objects only come of objects. -/
theorem exists_object (hf : Pointwise f) {members : List (String × Value)}
    (h : f v = object members) : ∃ old, v = object old := by
  have hkind := hf.kind_eq v
  rw [h] at hkind
  cases v with
  | object old => exact ⟨old, rfl⟩
  | _ => cases hkind

/-- Every child is what the map makes of a child. -/
theorem exists_of_mem_children (hf : Pointwise f) (hv : v.WellFormed) {child : Value}
    (mem : child ∈ (f v).children) : ∃ node ∈ v.childNodes, child = f node.2 := by
  obtain ⟨step, hchild⟩ := exists_child?_of_mem_children (hf.stepsDiffer hv) mem
  rw [hf.child? hv] at hchild
  obtain ⟨old, hold, rfl⟩ := Option.map_eq_some_iff.1 hchild
  exact ⟨(step, old), mem_childNodes_of_child? hold, rfl⟩

/-- Keys stay different at every level. -/
theorem wellFormed (hf : Pointwise f) (hv : v.WellFormed) : (f v).WellFormed := by
  induction v using induction_on_children with
  | step v ih =>
    refine wellFormed_iff.2 ⟨hf.stepsDiffer hv, fun child mem => ?_⟩
    obtain ⟨node, hnode, rfl⟩ := hf.exists_of_mem_children hv mem
    exact ih node hnode (hv.of_mem_children (mem_children_of_mem_childNodes hnode))

/-- A pointwise map makes no value deeper. -/
theorem depth_le (hf : Pointwise f) (hv : v.WellFormed) : (f v).depth ≤ v.depth := by
  induction v using induction_on_children with
  | step v ih =>
    refine depth_le_of_children (hf.kind_eq v) fun child mem => ?_
    obtain ⟨node, hnode, rfl⟩ := hf.exists_of_mem_children hv mem
    have hold := mem_children_of_mem_childNodes hnode
    exact ⟨node.2, hold, ih node hnode (hv.of_mem_children hold)⟩

/-- At every location stands what the map makes of what stood there. -/
theorem at? (hf : Pointwise f) (hv : v.WellFormed) (location : Location) :
    (f v).at? location = (v.at? location).map f := by
  induction location generalizing v with
  | nil => rfl
  | cons step location ih =>
    rw [Value.at?, Value.at?, hf.child? hv]
    cases hchild : v.child? step with
    | none => rfl
    | some child => exact ih (hv.of_child? hchild)

/-- Two changes of every node in place, one after the other. -/
theorem comp {g : Value → Value} (hf : Pointwise f) (hg : Pointwise g) :
    Pointwise fun v => f (g v) where
  kind_eq v := (hf.kind_eq (g v)).trans (hg.kind_eq v)
  child? hv step := by
    rw [hf.child? (hg.wellFormed hv), hg.child? hv, Option.map_map]
    rfl
  stepsDiffer hv := hf.stepsDiffer (hg.wellFormed hv)

/-- Documents are alike if no node's head is changed. -/
theorem alike {same : Binary64 → Binary64 → Prop} (hf : Pointwise f) (hv : v.WellFormed)
    (h : ∀ location node, v.at? location = some node → SameHead same (f node) node) :
    Alike same (f v) v := by
  intro location
  rw [hf.at? hv]
  cases hnode : v.at? location with
  | none => exact .none
  | some node => exact .some (h location node hnode)

end Pointwise

end Value

end JsonDoc
