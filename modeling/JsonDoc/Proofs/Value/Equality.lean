import JsonDoc.Proofs.Value.Alike

/-!
# `JsonDoc.Proofs.Value.Equality`: the laws of equality

`==` counts the members of two objects and looks each member of the first up in the second, and
nothing in this says that the objects can change places. They can, as the keys of an object differ:
equal values are those that are alike (`beq_iff_alike`), and being alike is as symmetric and as
transitive as the equality of numbers. `HasNan` are the values in which not-a-number stands
somewhere; they alone are not equal to themselves (`beq_self_iff`).

Objects are equal if they have the same keys and equal values at each (`beq_object_iff`). So the
order of members does not matter, neither in the objects themselves nor in the values below
(`beq_eq_of_reordered`).
-/

set_option autoImplicit false

namespace JsonDoc

open Number

/-! ### Members -/

/-- Two lists of members agree at every key if they have the same keys and agree at those. -/
theorem Members.rel_get?_iff_keys {α β : Type} {R : α → β → Prop} {members : Members α}
    {others : Members β} (hmembers : (keys members).Nodup) (hothers : (keys others).Nodup) :
    (∀ key, Option.Rel R (get? members key) (get? others key)) ↔
      (∀ key, key ∈ keys members ↔ key ∈ keys others) ∧
        ∀ key a b, (key, a) ∈ members → (key, b) ∈ others → R a b := by
  constructor
  · intro h
    refine ⟨fun key => ?_, fun key a b ha hb => ?_⟩
    · rw [← has_iff_mem_keys, ← has_iff_mem_keys, has, has, isSome_eq_of_rel (h key)]
    · have hkey := h key
      rwa [get?_of_mem hmembers ha, get?_of_mem hothers hb, Option.rel_some_some] at hkey
  · rintro ⟨hkeys, hvalues⟩ key
    -- A key is there on both sides or on neither.
    have hkey := hkeys key
    rw [← has_iff_mem_keys, ← has_iff_mem_keys, has, has] at hkey
    cases ha : get? members key with
    | none =>
      cases hb : get? others key with
      | none => exact .none
      | some b => simp [ha, hb] at hkey
    | some a =>
      cases hb : get? others key with
      | none => simp [ha, hb] at hkey
      | some b => exact .some (hvalues key a b (mem_of_get? ha) (mem_of_get? hb))

namespace Value

variable {u v w : Value}

/-! ### Symmetry and transitivity -/

/-- Equality is symmetric: members are looked up on both sides once the keys are known to be the
same. -/
theorem beq_symm (hv : v.WellFormed) (hw : w.WellFormed) (h : (v == w) = true) :
    (w == v) = true :=
  (beq_iff_alike hw hv).2 (((beq_iff_alike hv hw).1 h).symm fun _ _ => Binary64.equals_symm)

/-- The test gives the same from both sides. -/
theorem beq_comm (hv : v.WellFormed) (hw : w.WellFormed) : (v == w) = (w == v) :=
  Bool.eq_iff_iff.2 ⟨beq_symm hv hw, beq_symm hw hv⟩

-- If a key could come twice, as many members could be found in an object with other keys.
example : (object [("a", null), ("a", null)] == object [("a", null), ("b", null)]) = true ∧
    (object [("a", null), ("b", null)] == object [("a", null), ("a", null)]) = false := ⟨rfl, rfl⟩

/-- Equality is transitive. -/
theorem beq_trans (hu : u.WellFormed) (hv : v.WellFormed) (hw : w.WellFormed)
    (h : (u == v) = true) (h' : (v == w) = true) : (u == w) = true := by
  have huv := (beq_iff_alike hu hv).1 h
  have hvw := (beq_iff_alike hv hw).1 h'
  refine (beq_iff_alike hu hw).2 (huv.trans ?_ hvw)
  exact fun _ _ _ => Binary64.equals_trans

/-! ### Reflexivity -/

/-- A number of the document is not-a-number. -/
inductive HasNan : Value → Prop where
  | number : HasNan (number .nan)
  | inside {v child : Value} (mem : child ∈ v.children) (h : HasNan child) : HasNan v

/-- Not-a-number stands somewhere if a location leads to it. -/
theorem hasNan_iff (hv : v.WellFormed) :
    v.HasNan ↔ ∃ location, v.at? location = some (number .nan) := by
  constructor
  · intro h
    -- The location grows from the number up, one step for each container around it.
    induction h with
    | number => exact ⟨[], rfl⟩
    | inside mem _ ih =>
      obtain ⟨location, hnan⟩ := ih (hv.of_mem_children mem)
      obtain ⟨step, hchild⟩ := exists_child?_of_mem_children hv.stepsDiffer mem
      exact ⟨step :: location, by rw [at?_cons_of_child? hchild, hnan]⟩
  · rintro ⟨location, hnan⟩
    induction location generalizing v with
    | nil =>
      cases hnan
      exact .number
    | cons step location ih =>
      obtain ⟨child, hchild, hbelow⟩ := Option.bind_eq_some_iff.1 hnan
      exact .inside (mem_children_of_child? hchild) (ih (hv.of_child? hchild) hbelow)

/-- A value has the head of itself unless it is not-a-number. -/
theorem sameHead_self_iff : SameHead (fun x y => x.equals y = true) v v ↔ v ≠ number .nan := by
  cases v with
  | number x => rw [SameHead, Binary64.equals_self_iff, ne_eq, ne_eq, number.injEq]
  | _ => simp [SameHead]

/-- A value is equal to itself unless not-a-number stands somewhere in it. -/
theorem beq_self_iff (hv : v.WellFormed) : (v == v) = true ↔ ¬v.HasNan := by
  rw [beq_iff_alike hv hv, hasNan_iff hv, not_exists]
  -- A value is compared with itself at one location at a time, and only a number can fail there.
  refine forall_congr' fun location => ?_
  cases v.at? location with
  | none => simp
  | some node => rw [Option.rel_some_some, sameHead_self_iff, ne_eq, Option.some.injEq]

/-! ### Objects -/

/-- Objects are equal if they have the same keys and equal values at each. -/
theorem beq_object_iff {members others : List (String × Value)}
    (hv : (object members).WellFormed) (hw : (object others).WellFormed) :
    (object members == object others) = true ↔
      (∀ key, key ∈ Members.keys members ↔ key ∈ Members.keys others) ∧
        ∀ key item other, (key, item) ∈ members → (key, other) ∈ others →
          (item == other) = true := by
  rw [beq_iff_alike hv hw, alike_object_iff, Members.rel_get?_iff_keys
    (stepsDiffer_object.1 hv.stepsDiffer) (stepsDiffer_object.1 hw.stepsDiffer)]
  refine and_congr_right fun _ => forall_congr' fun key => forall₂_congr fun item other => ?_
  -- Values under one key are well formed themselves, so that `==` is being alike there too.
  refine forall₂_congr fun hitem hother => (beq_iff_alike ?_ ?_).symm
  · exact hv.of_mem_children (List.mem_map_of_mem hitem)
  · exact hw.of_mem_children (List.mem_map_of_mem hother)

/-! ### The order of members -/

/-- Objects differ in nothing but the order of members if one has the members of the other in some
order, each with a value that differs in nothing else either. -/
theorem reordered_of_permuted {members others : List (String × Value)}
    (hmembers : (Members.keys members).Nodup) (hothers : (Members.keys others).Nodup)
    (h : Permuted (fun m n => m.1 = n.1 ∧ Reordered m.2 n.2) members others) :
    Reordered (object members) (object others) := by
  refine alike_object_iff.2 ((Members.rel_get?_iff hmembers hothers).2 ⟨?_, fun m mem => ?_⟩)
  · obtain ⟨shuffled, hshuffled, hperm⟩ := h
    rw [hshuffled.length_eq, hperm.length_eq]
  · obtain ⟨n, hn, hkey, hvalue⟩ := h.exists_of_mem mem
    exact ⟨n.2, hkey ▸ Members.get?_of_mem hothers hn, hvalue⟩

/-- Values stay alike if members change their order. -/
theorem Alike.of_reordered {same : Binary64 → Binary64 → Prop} {v' w' : Value}
    (halike : Alike same v w) (h : Reordered v' v) (h' : Reordered w' w) : Alike same v' w' := by
  have hleft : Alike same v' w := h.trans (by rintro x _ z rfl hxz; exact hxz) halike
  exact hleft.trans (by rintro x y _ hxy rfl; exact hxy) (h'.symm fun _ _ => Eq.symm)

/-- Whether values are equal does not depend on the order of members, at any level. -/
theorem beq_eq_of_reordered {v' w' : Value} (hv : v.WellFormed) (hw : w.WellFormed)
    (hv' : v'.WellFormed) (hw' : w'.WellFormed) (h : Reordered v' v) (h' : Reordered w' w) :
    (v' == w') = (v == w) := by
  rw [Bool.eq_iff_iff, beq_iff_alike hv' hw', beq_iff_alike hv hw]
  refine ⟨fun halike => ?_, fun halike => halike.of_reordered h h'⟩
  exact halike.of_reordered (h.symm fun _ _ => Eq.symm) (h'.symm fun _ _ => Eq.symm)

/-- Equality is symmetric and transitive, and a value is equal to itself unless not-a-number stands
somewhere in it. Objects are equal if they have the same keys and equal values at each, and the
order of members does not matter at any level. -/
theorem equality_laws {u v w : Value} (hu : u.WellFormed) (hv : v.WellFormed)
    (hw : w.WellFormed) :
    (u == v) = (v == u) ∧
      ((u == v) = true → (v == w) = true → (u == w) = true) ∧
      ((u == u) = true ↔ ¬u.HasNan) ∧
      (∀ members others, u = object members → v = object others →
        ((u == v) = true ↔
          (∀ key, key ∈ Members.keys members ↔ key ∈ Members.keys others) ∧
            ∀ key item other, (key, item) ∈ members → (key, other) ∈ others →
              (item == other) = true)) ∧
      ∀ u' v' : Value, u'.WellFormed → v'.WellFormed → Reordered u' u → Reordered v' v →
        (u' == v') = (u == v) := by
  refine ⟨beq_comm hu hv, beq_trans hu hv hw, beq_self_iff hu, ?_, ?_⟩
  · rintro members others rfl rfl
    exact beq_object_iff hu hv
  · intro u' v' hu' hv' h h'
    exact beq_eq_of_reordered hu hv hu' hv' h h'

/-- Members in another order at two levels and the zeros of both signs; and not-a-number below the
root. -/
theorem equality_laws_swapped :
    let inner : Value := object [("x", null), ("y", bool true)]
    let swapped : Value := object [("y", bool true), ("x", null)]
    let u : Value := object [("a", number Binary64.zero.neg), ("b", array [inner])]
    let u' : Value := object [("b", array [swapped]), ("a", number Binary64.zero.neg)]
    let v : Value := object [("b", array [inner]), ("a", number .zero)]
    let w : Value := object [("a", number .zero), ("b", array [swapped])]
    let odd : Value := array [inner, number .nan]
    u ≠ v ∧ (u == v) = true ∧ (v == u) = true ∧ (u == w) = true ∧ ¬u.HasNan ∧
      u' ≠ u ∧ Reordered u' u ∧ (u' == v) = true ∧ odd.HasNan ∧ (odd == odd) = false := by
  intro inner swapped u u' v w odd
  have hu : u.WellFormed := by simp [u, inner, Members.keys]
  have hu' : u'.WellFormed := by simp [u', swapped, Members.keys]
  have hv : v.WellFormed := by simp [v, inner, Members.keys]
  have hw : w.WellFormed := by simp [w, swapped, Members.keys]
  have hodd : odd.WellFormed := by simp [odd, inner, Members.keys]
  have hinner : Reordered swapped inner := by
    refine reordered_of_permuted (by simp [Members.keys]) (by simp [Members.keys]) ?_
    refine ⟨[("y", bool true), ("x", null)], ?_, .swap _ _ _⟩
    exact List.forall₂_same.2 fun m _ => ⟨rfl, alike_refl (fun _ => rfl) m.2⟩
  have hreordered : Reordered u' u := by
    refine reordered_of_permuted (by simp [Members.keys]) (by simp [Members.keys]) ?_
    refine ⟨[("b", array [inner]), ("a", number Binary64.zero.neg)], ?_, .swap _ _ _⟩
    exact .cons ⟨rfl, alike_array_iff.2 (.cons hinner .nil)⟩
      (.cons ⟨rfl, alike_refl (fun _ => rfl) _⟩ .nil)
  obtain ⟨hcomm, htrans, hself, hobject, horder⟩ := equality_laws hu hv hw
  have huv : (u == v) = true := by
    refine (hobject _ _ rfl rfl).2 ⟨by simp [Members.keys, or_comm], ?_⟩
    intro key item other hitem hother
    simp only [List.mem_cons, List.not_mem_nil, or_false, Prod.mk.injEq] at hitem hother
    obtain ⟨rfl, rfl⟩ | ⟨rfl, rfl⟩ := hitem
    · obtain ⟨hkey, -⟩ | ⟨-, rfl⟩ := hother
      · exact absurd hkey (by decide)
      · rfl
    · obtain ⟨-, rfl⟩ | ⟨hkey, -⟩ := hother
      · rfl
      · exact absurd hkey (by decide)
  have hnan : odd.HasNan := .inside (by simp [odd, children]) .number
  have hne : ¬(odd == odd) = true := fun h => (equality_laws hodd hodd hodd).2.2.1.1 h hnan
  exact ⟨by simp [u, v], huv, hcomm ▸ huv, htrans huv rfl, hself.1 rfl, by simp [u, u'],
    hreordered, (horder u' v hu' hv hreordered (alike_refl (fun _ => rfl) v)).trans huv, hnan,
    Bool.eq_false_iff.2 hne⟩

end Value

end JsonDoc
