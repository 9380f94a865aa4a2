import JsonDoc.Json.Writer
import JsonDoc.Proofs.Value.Pointwise

/-!
# `JsonDoc.Proofs.Json.Sorting`: members in the order of their keys

`Value.sorted` orders the members of every object by their keys and changes nothing else: it is
pointwise (`pointwise_sorted`). In a well-formed document no two keys of an object are equal, so
that the order is strict (`WellFormed.pairwise_keys_of_sorted_eq`).
-/

set_option autoImplicit false

namespace JsonDoc

namespace Value

/-- The recursion over the items is a map. -/
theorem sortedItems_eq_map (items : List Value) : sortedItems items = items.map sorted := by
  induction items with
  | nil => rfl
  | cons item rest ih => rw [sortedItems, ih, List.map_cons]

/-- The recursion over the members is a map on their values. -/
theorem sortedMembers_eq_map (members : List (String × Value)) :
    sortedMembers members = members.map fun m => (m.1, m.2.sorted) := by
  induction members with
  | nil => rfl
  | cons m rest ih => rw [sortedMembers, ih, List.map_cons]

/-- A sorted object has the members that it had, each sorted itself. -/
theorem perm_of_sorted_eq {members others : List (String × Value)}
    (h : (object members).sorted = object others) :
    others.Perm (members.map fun m => (m.1, m.2.sorted)) := by
  cases h
  rw [sortedMembers_eq_map]
  exact List.mergeSort_perm _ _

/-- Sorting works node by node: it moves members, and look-up does not see that. -/
theorem pointwise_sorted : Pointwise sorted := by
  refine pointwise_of_parts (fun v => ?_) (fun items => ?_) fun members => ?_
  · cases v <;> rfl
  · rw [sorted, sortedItems_eq_map]
  · exact ⟨_, rfl, perm_of_sorted_eq rfl⟩

/-- The keys of an object are in strictly ascending order once its members are sorted. -/
theorem WellFormed.pairwise_keys_of_sorted_eq {members others : List (String × Value)}
    (hv : (object members).WellFormed) (h : (object members).sorted = object others) :
    (Members.keys others).Pairwise (· < ·) := by
  have nodup := (Members.perm_keys_of_perm_map (perm_of_sorted_eq h)).nodup_iff.2
    (stepsDiffer_object.1 hv.stepsDiffer)
  have hle : (Members.keys others).Pairwise (· ≤ ·) := by
    cases h
    refine List.pairwise_map.2 ((List.pairwise_mergeSort ?_ ?_ _).imp of_decide_eq_true)
    · intro a b c hab hbc
      exact decide_eq_true (String.le_trans (of_decide_eq_true hab) (of_decide_eq_true hbc))
    · intro a b
      rw [Bool.or_eq_true, decide_eq_true_eq, decide_eq_true_eq]
      exact String.le_total a.1 b.1
  -- As no two of the keys are equal, the order is strict.
  refine (hle.and nodup).imp fun {a b} h => String.not_le.1 fun hba => ?_
  exact h.2 (String.le_antisymm h.1 hba)

end Value

end JsonDoc
