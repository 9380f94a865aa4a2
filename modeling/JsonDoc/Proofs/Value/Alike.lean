import JsonDoc.Proofs.Remove.Without
import JsonDoc.Value.Equality
import Mathlib.Algebra.Ring.Nat
import Mathlib.Data.List.Perm.Basic

/-!
# `JsonDoc.Proofs.Value.Alike`: documents up to the order of members

Two values are alike if the same locations lead somewhere in both, and to nodes with the same head
there: to equal scalars, or to containers of one kind. So the items of arrays agree one by one, and
the members of objects agree by their keys, whatever their order. Numbers are compared by a relation
that is left open: under identity, alike values differ in nothing but the order of members
(`Reordered`); under numeric equality they are those that `==` identifies (`beq_iff_alike`).

Being alike is a matter of one level at a time (`alike_iff`), and it is as reflexive and as
transitive as the relation between numbers. `Permuted` relates lists whose elements correspond in
another order, as the children of alike values do (`Alike.permuted_childNodes`).
-/

set_option autoImplicit false

namespace JsonDoc

open Number

/-! ### Lists up to order -/

section
variable {α β γ δ : Type} {R : α → β → Prop} {S : γ → δ → Prop} {as : List α} {bs : List β}

/-- The elements of the second list, in some order, are related to those of the first. -/
def Permuted (R : α → β → Prop) (as : List α) (bs : List β) : Prop :=
  ∃ cs, List.Forall₂ R as cs ∧ cs.Perm bs

/-- Relations that agree on the elements relate the same lists. -/
theorem forall₂_congr_of_mem {R' : α → β → Prop} (h : ∀ a ∈ as, ∀ b ∈ bs, R a b ↔ R' a b) :
    List.Forall₂ R as bs ↔ List.Forall₂ R' as bs := by
  induction as generalizing bs with
  | nil => rw [List.forall₂_nil_left_iff, List.forall₂_nil_left_iff]
  | cons a as ih =>
    cases bs with
    | nil => simp
    | cons b bs =>
      rw [List.forall₂_cons, List.forall₂_cons, h a List.mem_cons_self b List.mem_cons_self]
      refine and_congr_right fun _ => ih fun a' ha' b' hb' => ?_
      exact h a' (List.mem_cons_of_mem a ha') b' (List.mem_cons_of_mem b hb')

/-- Seen from the other side the relation is turned around. -/
theorem Permuted.symm (h : Permuted R as bs) : Permuted (flip R) bs as := by
  obtain ⟨ds, hperm, hrel⟩ : Relation.Comp List.Perm (List.Forall₂ R) as bs := by
    rw [← List.forall₂_comp_perm_eq_perm_comp_forall₂]
    exact h
  exact ⟨ds, hrel.flip, hperm.symm⟩

/-- Elements that are related may be related more weakly. -/
theorem Permuted.imp {R' : α → β → Prop} (h : Permuted R as bs)
    (himp : ∀ a ∈ as, ∀ b ∈ bs, R a b → R' a b) : Permuted R' as bs := by
  obtain ⟨cs, hcs, hperm⟩ := h
  have hboth : List.Forall₂ (fun a b => R a b ∧ R' a b) as cs := by
    refine (forall₂_congr_of_mem fun a ha b hb => ?_).1 hcs
    exact ⟨fun hab => ⟨hab, himp a ha b (hperm.mem_iff.1 hb) hab⟩, And.left⟩
  exact ⟨cs, hboth.imp fun _ _ => And.right, hperm⟩

/-- Each element of the first list has a counterpart in the second. -/
theorem Permuted.exists_of_mem (h : Permuted R as bs) {a : α} (mem : a ∈ as) :
    ∃ b ∈ bs, R a b := by
  obtain ⟨cs, hrel, hperm⟩ := h
  obtain ⟨place, hplace, rfl⟩ := List.mem_iff_getElem.1 mem
  have hlength := hrel.length_eq
  exact ⟨cs[place], hperm.mem_iff.1 (List.getElem_mem _), hrel.get hplace (hlength ▸ hplace)⟩

/-- What related elements have in common holds of all elements on both sides or on neither. -/
theorem Permuted.forall_mem_iff {p : α → Prop} {q : β → Prop} (h : Permuted R as bs)
    (hpq : ∀ a b, R a b → (p a ↔ q b)) : (∀ a ∈ as, p a) ↔ ∀ b ∈ bs, q b := by
  constructor
  · intro hp b mem
    obtain ⟨a, mem', hab⟩ := h.symm.exists_of_mem mem
    exact (hpq a b hab).1 (hp a mem')
  · intro hq a mem
    obtain ⟨b, mem', hab⟩ := h.exists_of_mem mem
    exact (hpq a b hab).2 (hq b mem')

/-- Mapping both lists keeps counterparts in step. -/
theorem Permuted.map {f : α → γ} {g : β → δ} (h : Permuted R as bs)
    (hrel : ∀ a b, R a b → S (f a) (g b)) : Permuted S (as.map f) (bs.map g) := by
  obtain ⟨cs, hcs, hperm⟩ := h
  exact ⟨cs.map g, List.rel_map (fun a b hab => hrel a b hab) hcs, hperm.map g⟩

/-- Tests that agree on related elements keep the counterparts of what they keep. -/
theorem Permuted.filter {p : α → Bool} {q : β → Bool} (h : Permuted R as bs)
    (hpq : ∀ a b, R a b → p a = q b) : Permuted R (as.filter p) (bs.filter q) := by
  obtain ⟨cs, hcs, hperm⟩ := h
  exact ⟨cs.filter q, List.rel_filter (fun a b hab => by simp [hpq a b hab]) hcs, hperm.filter q⟩

/-- A sum does not depend on the order. -/
theorem Permuted.sum_eq {f : α → Nat} {g : β → Nat} (h : Permuted R as bs)
    (hfg : ∀ a b, R a b → f a = g b) : (as.map f).sum = (bs.map g).sum := by
  obtain ⟨cs, hcs, hperm⟩ := h.map (S := Eq) hfg
  rw [List.forall₂_eq_eq_eq] at hcs
  rw [hcs, hperm.sum_nat]

/-- Lists can be put one behind the other on both sides. -/
theorem Permuted.append {as' : List α} {bs' : List β} (h : Permuted R as bs)
    (h' : Permuted R as' bs') : Permuted R (as ++ as') (bs ++ bs') := by
  obtain ⟨cs, hcs, hperm⟩ := h
  obtain ⟨cs', hcs', hperm'⟩ := h'
  exact ⟨cs ++ cs', List.rel_append hcs hcs', hperm.append hperm'⟩

/-- Lists that are made of related elements and are permuted, put one behind the other, are
permuted. -/
theorem Permuted.flatMap {f : α → List γ} {g : β → List δ} (h : Permuted R as bs)
    (hfg : ∀ a b, R a b → Permuted S (f a) (g b)) : Permuted S (as.flatMap f) (bs.flatMap g) := by
  obtain ⟨cs, hcs, hperm⟩ := h
  have hflat : Permuted S (as.flatMap f) (cs.flatMap g) := by
    induction hcs generalizing bs with
    | nil => exact ⟨[], .nil, .nil⟩
    | cons hab _ ih =>
      rw [List.flatMap_cons, List.flatMap_cons]
      exact (hfg _ _ hab).append (ih (.refl _))
  obtain ⟨ds, hds, hperm'⟩ := hflat
  exact ⟨ds, hds, hperm'.trans (hperm.flatMap_right g)⟩

/-- Lists are related one by one if they are so at each place. -/
theorem forall₂_iff_getElem? :
    List.Forall₂ R as bs ↔ ∀ place : Nat, Option.Rel R as[place]? bs[place]? := by
  constructor
  · intro h place
    induction h generalizing place with
    | nil => exact .none
    | cons hab _ ih =>
      cases place with
      | zero => exact .some hab
      | succ place => exact ih place
  · intro h
    induction as generalizing bs with
    | nil =>
      cases bs with
      | nil => exact .nil
      | cons b bs => exact absurd (h 0) Option.not_rel_none_some
    | cons a as ih =>
      cases bs with
      | nil => exact absurd (h 0) Option.not_rel_some_none
      | cons b bs => exact .cons (Option.rel_some_some.1 (h 0)) (ih fun place => h (place + 1))

/-- What is there on both sides may be related more weakly. -/
theorem rel_imp {R' : α → β → Prop} {a : Option α} {b : Option β} (h : Option.Rel R a b)
    (himp : ∀ x y, R x y → R' x y) : Option.Rel R' a b := by
  cases h with
  | some hxy => exact .some (himp _ _ hxy)
  | none => exact .none

/-- Steps that are related lead from related results to related results, or stop on both sides. -/
theorem rel_bind {f : α → Option γ} {g : β → Option δ} {a : Option α} {b : Option β}
    (h : Option.Rel R a b) (hfg : ∀ x y, R x y → Option.Rel S (f x) (g y)) :
    Option.Rel S (a.bind f) (b.bind g) := by
  cases h with
  | some hxy => exact hfg _ _ hxy
  | none => exact .none

/-- Tests that agree on related elements agree, also where there is nothing. -/
theorem any_eq_of_rel {p : α → Bool} {q : β → Bool} {a : Option α} {b : Option β}
    (h : Option.Rel R a b) (hpq : ∀ x y, R x y → p x = q y) : a.any p = b.any q := by
  cases h with
  | some hxy => exact hpq _ _ hxy
  | none => rfl

/-- Something is there on both sides or on neither. -/
theorem isSome_eq_of_rel {a : Option α} {b : Option β} (h : Option.Rel R a b) :
    a.isSome = b.isSome := by
  cases h <;> rfl

/-- What is there on the left has a counterpart on the right. -/
theorem exists_of_rel_some {a : Option α} {b : Option β} {x : α} (h : Option.Rel R a b)
    (ha : a = some x) : ∃ y, b = some y ∧ R x y := by
  subst ha
  cases h with
  | some hxy => exact ⟨_, rfl, hxy⟩

/-- What is there on the right has a counterpart on the left. -/
theorem exists_of_rel_some_right {a : Option α} {b : Option β} {y : β} (h : Option.Rel R a b)
    (hb : b = some y) : ∃ x, a = some x ∧ R x y := by
  subst hb
  cases h with
  | some hxy => exact ⟨_, rfl, hxy⟩

/-- Where nothing is on the left nothing is on the right. -/
theorem eq_none_of_rel {a : Option α} {b : Option β} (h : Option.Rel R a b) (ha : a = none) :
    b = none := by
  subst ha
  cases h
  rfl

end

/-- Objects agree if they have equally many members and each of the first is found in the second. -/
theorem Members.rel_get?_iff {α β : Type} {R : α → β → Prop} {members : Members α}
    {others : Members β} (hmembers : (keys members).Nodup) (hothers : (keys others).Nodup) :
    (∀ key, Option.Rel R (get? members key) (get? others key)) ↔
      members.length = others.length ∧
        ∀ m ∈ members, ∃ other, get? others m.1 = some other ∧ R m.2 other := by
  have hkey {γ : Type} {some' : Members γ} {key : String} :
      key ∈ keys some' ↔ ∃ value, get? some' key = some value := by
    rw [← has_iff_mem_keys, has, Option.isSome_iff_exists]
  have hlength {γ : Type} (some' : Members γ) : (keys some').length = some'.length :=
    List.length_map _
  constructor
  · intro h
    constructor
    · have hperm : (keys members).Perm (keys others) := by
        refine (List.perm_ext_iff_of_nodup hmembers hothers).2 fun key => ?_
        rw [hkey, hkey]
        constructor
        · rintro ⟨a, ha⟩
          obtain ⟨b, hb, -⟩ := exists_of_rel_some (h key) ha
          exact ⟨b, hb⟩
        · rintro ⟨b, hb⟩
          cases ha : get? members key with
          | some a => exact ⟨a, rfl⟩
          | none =>
            rw [eq_none_of_rel (h key) ha] at hb
            cases hb
      rw [← hlength members, hperm.length_eq, hlength]
    · intro m mem
      exact exists_of_rel_some (h m.1) (get?_of_mem hmembers mem)
  · rintro ⟨hcount, hfound⟩ key
    cases hmember : get? members key with
    | some a =>
      obtain ⟨b, hb, hab⟩ := hfound _ (mem_of_get? hmember)
      rw [hb]
      exact .some hab
    | none =>
      cases hother : get? others key with
      | none => exact .none
      | some b =>
        -- No key of the second is left over: they are as many as those of the first.
        have hsub : keys members ⊆ keys others := by
          intro name hname
          obtain ⟨m, mem, rfl⟩ := List.mem_map.1 hname
          obtain ⟨other, hother, -⟩ := hfound m mem
          exact hkey.2 ⟨other, hother⟩
        have hperm := (List.subperm_of_subset hmembers hsub).perm_of_length_le
          (Nat.le_of_eq (by rw [hlength, hlength, hcount]))
        obtain ⟨a, ha⟩ := hkey.1 (hperm.mem_iff.2 (hkey.2 ⟨b, hother⟩))
        rw [hmember] at ha
        cases ha

/-! ### Numbers -/

/-- Numbers are equal if they have the same position, which not-a-number has not. Both zeros have
one position. -/
theorem Number.Binary64.equals_iff {x y : Binary64} :
    x.equals y = true ↔ ∃ place, x.position? = some place ∧ y.position? = some place := by
  rw [Binary64.equals, Binary64.order]
  cases x.position? with
  | none => simp
  | some a =>
    cases y.position? with
    | none => simp
    | some b => simp [eq_comm (a := b)]

section
variable {x y z : Binary64}

/-- Equality of numbers is symmetric. -/
theorem Number.Binary64.equals_symm (h : x.equals y = true) : y.equals x = true := by
  obtain ⟨place, hx, hy⟩ := equals_iff.1 h
  exact equals_iff.2 ⟨place, hy, hx⟩

/-- Equality of numbers is transitive. -/
theorem Number.Binary64.equals_trans (h : x.equals y = true) (h' : y.equals z = true) :
    x.equals z = true := by
  obtain ⟨place, hx, hy⟩ := equals_iff.1 h
  obtain ⟨place', hy', hz⟩ := equals_iff.1 h'
  exact equals_iff.2 ⟨place', hx.trans (hy.symm.trans hy'), hz⟩

/-- Not-a-number is the only number that is not equal to itself. -/
theorem Number.Binary64.equals_self_iff : x.equals x = true ↔ x ≠ nan := by
  rw [equals_iff]
  cases x <;> simp [position?]

end

namespace Value

/-- Equal scalars, with numbers compared by `same`, or containers of one kind. -/
def SameHead (same : Binary64 → Binary64 → Prop) : Value → Value → Prop
  | null, null => True
  | bool a, bool b => a = b
  | number x, number y => same x y
  | string s, string t => s = t
  | array _, array _ => True
  | object _, object _ => True
  | _, _ => False

/-- The same locations lead somewhere in both values, and to nodes with the same head. -/
def Alike (same : Binary64 → Binary64 → Prop) (v w : Value) : Prop :=
  ∀ location, Option.Rel (SameHead same) (v.at? location) (w.at? location)

/-- The values differ in nothing but the order of members. -/
abbrev Reordered (v w : Value) : Prop := Alike Eq v w

section
variable {same : Binary64 → Binary64 → Prop} {u v w : Value}

/-! ### One level -/

/-- Values with the same head are of one kind. -/
theorem SameHead.kind_eq (h : SameHead same v w) : v.kind = w.kind := by
  rw [SameHead.eq_def] at h
  split at h
  all_goals first | rfl | exact h.elim

/-- Every value has its own head, if every number is the same as itself. -/
theorem sameHead_refl (hsame : ∀ x, same x x) (v : Value) : SameHead same v v := by
  cases v with
  | number x => exact hsame x
  | bool | string => rfl
  | _ => trivial

/-- Heads can be compared over a third value. The relations on numbers may differ, for values that
are converted in between. -/
theorem SameHead.trans {same' same'' : Binary64 → Binary64 → Prop}
    (hsame : ∀ x y z, same x y → same' y z → same'' x z) (h : SameHead same u v)
    (h' : SameHead same' v w) : SameHead same'' u w := by
  cases u <;> cases v <;> first | exact h.elim | skip
  all_goals cases w <;> first
    | exact h'.elim
    | trivial
    | exact hsame _ _ _ h h'
    | exact Eq.trans h h'

/-- Heads can be compared from either side. -/
theorem SameHead.symm (hsame : ∀ x y, same x y → same y x) (h : SameHead same v w) :
    SameHead same w v := by
  cases v <;> cases w <;> first
    | exact h.elim
    | trivial
    | exact hsame _ _ h
    | exact Eq.symm h

/-- Values are alike if they have the same head and alike children under the same steps. -/
theorem alike_iff :
    Alike same v w ↔
      SameHead same v w ∧ ∀ step, Option.Rel (Alike same) (v.child? step) (w.child? step) := by
  constructor
  · intro h
    refine ⟨Option.rel_some_some.1 (h []), fun step => ?_⟩
    have hstep := h [step]
    rw [at?_singleton, at?_singleton] at hstep
    cases hv : v.child? step with
    | none =>
      rw [hv] at hstep
      rw [eq_none_of_rel hstep rfl]
      exact .none
    | some child =>
      rw [hv] at hstep
      obtain ⟨other, hw, -⟩ := exists_of_rel_some hstep rfl
      rw [hw]
      -- Below the step the same locations are compared, with one step less.
      refine .some fun location => ?_
      have hbelow := h (step :: location)
      rwa [at?_cons_of_child? hv, at?_cons_of_child? hw] at hbelow
  · rintro ⟨hhead, hchild⟩ location
    cases location with
    | nil => exact .some hhead
    | cons step location => exact rel_bind (hchild step) fun _ _ hother => hother location

/-- Values that are alike have the same head: take the empty location. -/
theorem Alike.sameHead (h : Alike same v w) : SameHead same v w := (alike_iff.1 h).1

/-- Values that are alike are of one kind. -/
theorem Alike.kind_eq (h : Alike same v w) : v.kind = w.kind := h.sameHead.kind_eq

/-- A step leads to children that are alike, or nowhere in both. -/
theorem Alike.child? (h : Alike same v w) (step : Step) :
    Option.Rel (Alike same) (v.child? step) (w.child? step) := (alike_iff.1 h).2 step

/-- Each child has one that is alike under the same step. -/
theorem Alike.exists_child? (h : Alike same v w) {step : Step} {child : Value}
    (hchild : v.child? step = some child) :
    ∃ other, w.child? step = some other ∧ Alike same child other :=
  exists_of_rel_some (h.child? step) hchild

/-- Every value is alike to itself, if every number is the same as itself. -/
theorem alike_refl (hsame : ∀ x, same x x) (v : Value) : Alike same v v := by
  intro location
  cases v.at? location with
  | none => exact .none
  | some node => exact .some (sameHead_refl hsame node)

/-- Values can be compared over a third one, location by location. -/
theorem Alike.trans {same' same'' : Binary64 → Binary64 → Prop}
    (hsame : ∀ x y z, same x y → same' y z → same'' x z) (h : Alike same u v)
    (h' : Alike same' v w) : Alike same'' u w := by
  intro location
  cases hu : u.at? location with
  | none =>
    rw [eq_none_of_rel (h' location) (eq_none_of_rel (h location) hu)]
    exact .none
  | some node =>
    obtain ⟨node', hv, hhead⟩ := exists_of_rel_some (h location) hu
    obtain ⟨node'', hw, hhead'⟩ := exists_of_rel_some (h' location) hv
    rw [hw]
    exact .some (hhead.trans hsame hhead')

/-- Values can be compared from either side. -/
theorem Alike.symm (hsame : ∀ x y, same x y → same y x) (h : Alike same v w) :
    Alike same w v := by
  intro location
  cases hv : v.at? location with
  | none =>
    rw [eq_none_of_rel (h location) hv]
    exact .none
  | some node =>
    obtain ⟨other, hw, hhead⟩ := exists_of_rel_some (h location) hv
    rw [hw]
    exact .some (hhead.symm hsame)

/-- Arrays are alike if their items are, one by one. -/
theorem alike_array_iff {items others : List Value} :
    Alike same (array items) (array others) ↔ List.Forall₂ (Alike same) items others := by
  rw [alike_iff, and_iff_right (show SameHead same (array items) (array others) from trivial),
    forall₂_iff_getElem?]
  constructor
  · exact fun h place => h (.item place)
  · intro h step
    cases step with
    | key => exact .none
    | item place => exact h place

/-- Objects are alike if they have the same keys and alike values under each. -/
theorem alike_object_iff {members others : List (String × Value)} :
    Alike same (object members) (object others) ↔
      ∀ key, Option.Rel (Alike same) (Members.get? members key) (Members.get? others key) := by
  rw [alike_iff, and_iff_right (show SameHead same (object members) (object others) from trivial)]
  constructor
  · exact fun h key => h (.key key)
  · intro h step
    cases step with
    | key name => exact h name
    | item => exact .none

/-! ### Children -/

/-- The children of alike values correspond by their steps. -/
theorem Alike.permuted_childNodes (h : Alike same v w) (hv : v.StepsDiffer) (hw : w.StepsDiffer) :
    Permuted (fun node other => node.1 = other.1 ∧ Alike same node.2 other.2) v.childNodes
      w.childNodes := by
  -- Each child of the first is paired with the child of the second under the same step.
  let partner (node : Step × Value) : Step × Value :=
    (node.1, (w.child? node.1).getD node.2)
  have hpartner : ∀ node ∈ v.childNodes, ∃ other, w.child? node.1 = some other ∧
      partner node = (node.1, other) ∧ Alike same node.2 other := by
    intro node mem
    obtain ⟨other, hother, halike⟩ := h.exists_child? (child?_of_mem_childNodes hv mem)
    exact ⟨other, hother, by simp only [partner, hother, Option.getD_some], halike⟩
  refine ⟨v.childNodes.map partner, ?_, (List.perm_ext_iff_of_nodup ?_ ?_).2 fun other => ?_⟩
  · rw [List.forall₂_map_right_iff, List.forall₂_same]
    intro node mem
    obtain ⟨other, -, heq, halike⟩ := hpartner node mem
    rw [heq]
    exact ⟨rfl, halike⟩
  · refine List.Nodup.of_map Prod.fst ?_
    rw [List.map_map]
    exact hv
  · exact List.Nodup.of_map Prod.fst hw
  · rw [List.mem_map]
    constructor
    · rintro ⟨node, mem, rfl⟩
      obtain ⟨other, hother, heq, -⟩ := hpartner node mem
      rw [heq]
      exact mem_childNodes_of_child? hother
    · intro mem
      have hchild := child?_of_mem_childNodes hw mem
      cases hnode : v.child? other.1 with
      | none =>
        rw [eq_none_of_rel (h.child? other.1) hnode] at hchild
        cases hchild
      | some child =>
        refine ⟨(other.1, child), mem_childNodes_of_child? hnode, ?_⟩
        simp only [partner, hchild, Option.getD_some]

end

/-! ### Equality -/

/-- The test on items compares them place by place. -/
theorem equalItems_iff {items others : List Value} :
    equalItems items others = true ↔ List.Forall₂ (fun v w => v.equals w = true) items others := by
  induction items generalizing others with
  | nil => cases others <;> simp [equalItems]
  | cons item rest ih => cases others <;> simp [equalItems, ih]

/-- The test on members looks each of them up on the other side. -/
theorem includedMembers_iff {members others : List (String × Value)} :
    includedMembers members others = true ↔
      ∀ m ∈ members, ∃ other, Members.get? others m.1 = some other ∧ m.2.equals other = true := by
  induction members with
  | nil => simp [includedMembers]
  | cons m rest ih =>
    obtain ⟨key, item⟩ := m
    rw [includedMembers, Bool.and_eq_true, ih, List.forall_mem_cons]
    refine and_congr_left' ?_
    cases Members.get? others key <;> simp

/-- `==` identifies the values that are alike with equal numbers. -/
theorem beq_iff_alike {v w : Value} (hv : v.WellFormed) (hw : w.WellFormed) :
    (v == w) = true ↔ Alike (fun x y => x.equals y = true) v w := by
  have hbeq (v w : Value) : (v == w) = v.equals w := rfl
  induction v using induction_on_children generalizing w with
  | step v ih =>
    rw [hbeq]
    cases v with
    | array items =>
      cases w with
      | array others =>
        rw [equals, equalItems_iff, alike_array_iff]
        refine forall₂_congr_of_mem fun item hitem other hother => ?_
        obtain ⟨place, hplace⟩ := List.mem_iff_getElem?.1 hitem
        have mem := List.mem_of_getElem? (getElem?_childNodes_array.2 ⟨rfl, hplace⟩)
        exact ih _ mem (hv.of_mem_children hitem) (hw.of_mem_children hother)
      | _ => simp [equals, alike_iff, SameHead]
    | object members =>
      cases w with
      | object others =>
        -- The test compares the numbers of members and looks those of one side up on the other,
        -- which says that each key leads to equal members or to nothing in both.
        have hkeys := Members.rel_get?_iff (R := Alike fun x y => x.equals y = true)
          (stepsDiffer_object.1 hv.stepsDiffer) (stepsDiffer_object.1 hw.stepsDiffer)
        rw [equals, alike_object_iff, hkeys, Bool.and_eq_true, beq_iff_eq, includedMembers_iff]
        refine and_congr_right fun _ => forall₂_congr fun m mem => exists_congr fun other => ?_
        refine and_congr_right fun hother => ?_
        have hmem : (Step.key m.1, m.2) ∈ (object members).childNodes := List.mem_map_of_mem mem
        have hchild : (object others).child? (.key m.1) = some other := hother
        exact ih _ hmem (hv.of_mem_children (List.mem_map_of_mem mem)) (hw.of_child? hchild)
      | _ => simp [equals, alike_iff, SameHead]
    | _ => cases w <;> simp [equals, alike_iff, SameHead, child?]

end Value

end JsonDoc
