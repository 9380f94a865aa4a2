import JsonDoc.Proofs.Select.Address

/-!
# `JsonDoc.Proofs.Value.Depth`: how deep a value is, by its children

The depth of a value counts containers, and so an empty container counts while a scalar does not.
A container is at most `n + 1` deep exactly if its children are at most `n` deep
(`depth_le_succ_iff`), and every child is less deep than the value that holds it
(`depth_lt_of_mem_children`).

Walks count steps instead. A step leads from a container to a child, which may be a scalar, so as
many steps lead down from a value as containers are nested in it, and no more
(`within_of_depth_le`).
-/

set_option autoImplicit false

namespace JsonDoc.Value

/-- The accumulator of the recursion bounded along with the items. -/
theorem deepestItem_le_iff {most n : Nat} {items : List Value} :
    deepestItem most items ≤ n ↔ most ≤ n ∧ ∀ item ∈ items, item.depth ≤ n := by
  induction items generalizing most with
  | nil => simp [deepestItem]
  | cons item rest ih =>
    rw [deepestItem, ih, List.forall_mem_cons, Nat.max_le, and_assoc]

/-- The accumulator of the recursion bounded along with the values of the members. -/
theorem deepestMember_le_iff {most n : Nat} {members : List (String × Value)} :
    deepestMember most members ≤ n ↔
      most ≤ n ∧ ∀ item ∈ Members.values members, item.depth ≤ n := by
  induction members generalizing most with
  | nil => simp [deepestMember, Members.values]
  | cons m rest ih =>
    obtain ⟨key, item⟩ := m
    have hvalues : Members.values ((key, item) :: rest) = item :: Members.values rest := rfl
    rw [deepestMember, ih, hvalues, List.forall_mem_cons, Nat.max_le, and_assoc]

section
variable {v w child : Value} {n : Nat}

/-- Scalars are the values without depth. -/
theorem depth_eq_zero_iff : v.depth = 0 ↔ v.kind ≠ .array ∧ v.kind ≠ .object := by
  cases v <;> simp [depth, kind]

/-- A bound on the depth is a bound, smaller by one, on the children. -/
theorem depth_le_succ_iff : v.depth ≤ n + 1 ↔ ∀ child ∈ v.children, child.depth ≤ n := by
  cases v with
  | array items =>
    rw [depth, Nat.add_le_add_iff_right, deepestItem_le_iff, and_iff_right (Nat.zero_le n)]
    rfl
  | object members =>
    rw [depth, Nat.add_le_add_iff_right, deepestMember_le_iff, and_iff_right (Nat.zero_le n)]
    rfl
  | _ => simp [depth, children]

/-- Children are less deep, for inductions on the depth. -/
theorem depth_lt_of_mem_children (mem : child ∈ v.children) : child.depth < v.depth := by
  cases hdepth : v.depth with
  | zero => cases v <;> simp [depth, children] at hdepth mem
  | succ n => exact Nat.lt_succ_of_le (depth_le_succ_iff.1 (Nat.le_of_eq hdepth) child mem)

/-- A value of the same kind whose children are no deeper is no deeper. -/
theorem depth_le_of_children (hkind : w.kind = v.kind)
    (h : ∀ child ∈ w.children, ∃ old ∈ v.children, child.depth ≤ old.depth) :
    w.depth ≤ v.depth := by
  cases hdepth : v.depth with
  | zero =>
    rw [depth_eq_zero_iff, ← hkind, ← depth_eq_zero_iff] at hdepth
    exact Nat.le_of_eq hdepth
  | succ n =>
    rw [depth_le_succ_iff]
    intro child mem
    obtain ⟨old, hold, hle⟩ := h child mem
    exact Nat.le_trans hle (depth_le_succ_iff.1 (Nat.le_of_eq hdepth) old hold)

/-- No more steps lead down from a value than containers are nested in it. -/
theorem within_of_depth_le (h : v.depth ≤ n) : v.Within n := by
  induction n generalizing v with
  | zero =>
    refine List.eq_nil_iff_forall_not_mem.2 fun child mem => ?_
    exact absurd (depth_lt_of_mem_children mem) (by omega)
  | succ n ih =>
    intro child mem
    exact ih (depth_le_succ_iff.1 h child mem)

end

end JsonDoc.Value
