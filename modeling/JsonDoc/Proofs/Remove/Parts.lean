import JsonDoc.Proofs.Edit.FromFront
import JsonDoc.Proofs.Remove.Gone
import Mathlib.Logic.Relation

/-!
# `JsonDoc.Proofs.Remove.Parts`: parts taken out one by one

`Value.LosesPart` takes one member or item out of a value, at any depth, and `Value.Loses` takes out
any number of them, one after the other. This is what deletions do to a document over time.

`Value.Pruned` takes parts out all at once. One part that is lost leaves a value that is pruned
(`Value.Pruned.eraseAt`), and so does a whole run (`Value.Loses.pruned`), by an induction on the
run in which the next part is lost by what is left so far.

So a condition, which holds of a value if it holds of what is left of it, is positive
(`Condition.holds_of_loses`).
-/

set_option autoImplicit false

namespace JsonDoc

namespace Value

/-- The second value is the first without the member or item at some location. Where nothing
stands, nothing is lost, and the value itself stays. -/
def LosesPart (v w : Value) : Prop := ∃ location, w = v.eraseAt location

/-- The second value is the first after it has lost some parts, one after the other. -/
def Loses : Value → Value → Prop := Relation.ReflTransGen LosesPart

section
variable {v w child new : Value} {step : Step}

/-! ### One part -/

/-- Taking out one child, as a revision of all children. The keys have to differ: only the first
member with a key is taken out. -/
theorem eraseChild_eq_revise (differ : v.StepsDiffer) (step : Step) :
    v.eraseChild step = v.revise fun node => if node.1 = step then none else some node.2 := by
  have hself (h : ∀ node ∈ v.childNodes, node.1 ≠ step) :
      v = v.revise fun node => if node.1 = step then none else some node.2 := by
    refine (revise_self v).symm.trans (revise_congr fun node mem => ?_)
    rw [if_neg (h node mem)]
  cases v with
  | array items =>
    cases step with
    | item place =>
      rw [eraseChild, eraseIdx_eq_filterMap items 0 place, revise, childNodes, List.filterMap_map]
      simp
    | key name =>
      refine hself fun node mem heq => ?_
      obtain ⟨item, -, rfl⟩ := List.mem_map.1 mem
      cases heq
  | object members =>
    cases step with
    | item place =>
      refine hself fun node mem heq => ?_
      obtain ⟨m, -, rfl⟩ := List.mem_map.1 mem
      cases heq
    | key name =>
      rw [eraseChild, Members.erase_eq_filterMap name (stepsDiffer_object.1 differ), revise]
      congr 1
      refine List.filterMap_congr fun m _ => ?_
      simp only [Step.key.injEq]
      split <;> rfl
  | _ => rfl

/-- Where a child has lost parts, the value has. -/
theorem Pruned.putChild (differ : v.StepsDiffer) (hchild : v.child? step = some child)
    (h : child.Pruned true new) : v.Pruned true (v.putChild step new) := by
  rw [putChild_eq_revise hchild]
  refine Prunes.pruned ⟨fun node mem w hw => ?_, nofun⟩ differ
  split at hw
  · next hstep =>
    have hnode := child?_of_mem_childNodes differ mem
    rw [hstep, hchild] at hnode
    cases hnode
    cases hw
    exact h
  · cases hw
    exact .refl true _

/-- One part that is taken out leaves a value that is pruned. -/
theorem Pruned.eraseAt (hv : v.WellFormed) (location : Location) :
    v.Pruned true (v.eraseAt location) := by
  induction location generalizing v with
  | nil => exact .refl true v
  | cons step rest ih =>
    cases rest with
    | nil =>
      rw [Value.eraseAt, eraseChild_eq_revise hv.stepsDiffer]
      refine Prunes.pruned ⟨fun node _ w hw => ?_, fun h => by cases h⟩ hv.stepsDiffer
      split at hw
      · cases hw
      · cases hw
        exact .refl true _
    | cons next rest =>
      rw [Value.eraseAt]
      cases hchild : v.child? step with
      | none => exact .refl true v
      | some child => exact .putChild hv.stepsDiffer hchild (ih (hv.of_child? hchild))

/-- A run of parts taken out one after the other prunes a value. What is left stays well formed, so
that the next part can be taken out of it. -/
theorem Loses.pruned (hv : v.WellFormed) (h : v.Loses w) : v.Pruned true w := by
  induction h with
  | refl => exact .refl true v
  | tail _ hpart ih =>
    obtain ⟨location, rfl⟩ := hpart
    exact ih.trans (.eraseAt (ih.wellFormed hv) location)

/-- Runs can be put one behind the other. -/
theorem Loses.trans {u : Value} (h : u.Loses v) (h' : v.Loses w) : u.Loses w :=
  Relation.ReflTransGen.trans h h'

/-- One part is a run of its own. -/
theorem loses_eraseAt (v : Value) (location : Location) : v.Loses (v.eraseAt location) :=
  Relation.ReflTransGen.single ⟨location, rfl⟩

end

end Value

/-- Conditions are positive: one that holds of what is left of a value, after it has lost any
members and items at any depth, holds of the value. -/
theorem Condition.holds_of_loses (condition : Condition) {v left : Value} (hv : v.WellFormed)
    (h : v.Loses left) (holds : condition.holds left = true) : condition.holds v = true := by
  obtain ⟨gone, -, rfl⟩ := h.pruned hv
  exact holds_of_without hv holds

/-- `@.a != null || @.b.c == true` holds of `{"a": [], "b": {}}`, which is left of
`{"a": [1, {"c": 2}], "b": {"c": false}}` after both items and a member of a member are lost. -/
theorem Condition.holds_of_loses_nested :
    ∃ (condition : Condition) (v left : Value), v.Loses left ∧ v.WellFormed ∧
      left = .object [("a", .array []), ("b", .object [])] ∧ condition.holds left = true ∧
        condition.holds v = true := by
  let condition : Condition :=
    .or (.compare ["a"] .ne .null) (.compare ["b", "c"] .eq (.bool true))
  let v : Value := .object [("a", .array [.ofInt 1, .object [("c", .ofInt 2)]]),
    ("b", .object [("c", .bool false)])]
  let left : Value := .object [("a", .array []), ("b", .object [])]
  have hv : v.WellFormed := by simp [v, Members.keys, Value.ofInt]
  have hloses : v.Loses left :=
    ((Value.loses_eraseAt v [.key "a", .item 0]).trans
      (Value.loses_eraseAt _ [.key "b", .key "c"])).trans
      (Value.loses_eraseAt _ [.key "a", .item 0])
  exact ⟨condition, v, left, hloses, hv, rfl, rfl, condition.holds_of_loses hv hloses rfl⟩

end JsonDoc
