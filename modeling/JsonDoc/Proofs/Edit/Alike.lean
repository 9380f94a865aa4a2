import JsonDoc.Proofs.Edit.Step
import JsonDoc.Proofs.Select.Alike

/-!
# `JsonDoc.Proofs.Edit.Alike`: assigning in documents that are alike

`Edited.Alike` relates two edits that both fail, or that reach equally many nodes and leave
counterparts. What an edit does to children is done in the same way to the children of the one and
of the other, in whatever order they stand; so editing the children (`editChildren_alike`) and
assigning along segments (`assign_alike`) lead from counterparts to edits that are alike.

A failed run may have stopped at different children, so that nothing is said of what it leaves.
-/

set_option autoImplicit false

namespace JsonDoc

open Number Value

section
variable {same : Binary64 → Binary64 → Prop}

/-- Both edits fail, or they reach equally many nodes and leave counterparts. -/
inductive Edited.Alike (same : Binary64 → Binary64 → Prop) (edited other : Edited Value Nat) :
    Prop where
  | failed (e e' : Error) (left : edited.outcome = .error e) (right : other.outcome = .error e')
  | done (n : Nat) (left : edited.outcome = .ok n) (right : other.outcome = .ok n)
      (value : Counterparts same edited.value other.value)

namespace Edited.Alike

variable {edited other : Edited Value Nat} {v w v' w' : Value}

/-- Edits that leave counterparts as they are. -/
theorem unchanged (h : Counterparts same v w) : Edited.Alike same ⟨v, .ok 0⟩ ⟨w, .ok 0⟩ :=
  .done 0 rfl rfl h

/-- Edits that both fail are alike whatever they leave and whatever they fail with. -/
theorem refused (e e' : Error) : Edited.Alike same ⟨v, .error e⟩ ⟨w, .error e'⟩ :=
  .failed e e' rfl rfl

/-- The edits seen from one step above. -/
theorem within (h : Edited.Alike same edited other)
    (hvalue : Counterparts same edited.value other.value → Counterparts same v w) :
    Edited.Alike same ⟨v, edited.outcome⟩ ⟨w, other.outcome⟩ := by
  cases h with
  | failed e e' left right => exact .failed e e' left right
  | done n left right value => exact .done n left right (hvalue value)

/-- The edits seen from one step above, where what was made for them goes again if they reached
nothing. -/
theorem kept (h : Edited.Alike same edited other) (hold : Counterparts same v w)
    (hvalue : Counterparts same edited.value other.value → Counterparts same v' w') :
    Edited.Alike same ⟨if edited.any then v' else v, edited.outcome⟩
      ⟨if other.any then w' else w, other.outcome⟩ := by
  cases h with
  | failed e e' left right => exact .failed e e' left right
  | done n left right value =>
    rw [any_of_ok left, any_of_ok right]
    refine .done n left right ?_
    cases decide (0 < n) with
    | true => exact hvalue value
    | false => exact hold

/-- Edits that are alike reach equally many nodes. -/
theorem count_eq (h : Edited.Alike same edited other) : edited.count = other.count := by
  cases h with
  | failed e e' left right => rw [count, count, left, right]
  | done n left right value => rw [count_of_ok left, count_of_ok right]

/-- One of the edits has reached a node exactly if the other has. -/
theorem any_eq (h : Edited.Alike same edited other) : edited.any = other.any := by
  rw [Bool.eq_iff_iff, any_iff, any_iff, h.count_eq]

/-- Neither or both of the edits succeed. -/
theorem ok_iff (h : Edited.Alike same edited other) :
    edited.outcome = .ok edited.count ↔ other.outcome = .ok other.count := by
  cases h with
  | failed e e' left right => simp [left, right]
  | done n left right value => simp [left, right, count_of_ok left, count_of_ok right]

/-- An edit that succeeds leaves a counterpart of what the other one leaves. -/
theorem value_of_ok (h : Edited.Alike same edited other)
    (hok : edited.outcome = .ok edited.count) : Counterparts same edited.value other.value := by
  cases h with
  | failed e e' left right =>
    rw [left] at hok
    cases hok
  | done n left right value => exact value

/-- Edits neither of which succeeds are alike. -/
theorem of_not_ok (left : edited.outcome ≠ .ok edited.count)
    (right : other.outcome ≠ .ok other.count) : Edited.Alike same edited other := by
  cases hleft : edited.outcome with
  | ok n => exact absurd (ok_count hleft) left
  | error e =>
    cases hright : other.outcome with
    | ok n => exact absurd (ok_count hright) right
    | error e' => exact .failed e e' hleft hright

end Edited.Alike

/-! ### Children -/

variable {edit edit' : Value → Edited Value Nat} {v w : Value}

/-- Edits of the children that are alike are alike together. -/
theorem editChildren_alike (h : Counterparts same v w)
    (hedit : ∀ {v w}, Counterparts same v w → Edited.Alike same (edit v) (edit' w)) :
    Edited.Alike same (editChildren edit v) (editChildren edit' w) := by
  have hedits : Permuted (fun child other => Edited.Alike same (edit child) (edit' other))
      v.children w.children :=
    h.permuted_children.imp fun _ _ _ _ => hedit
  have hiff : (∀ child ∈ v.children, (edit child).outcome = .ok (edit child).count) ↔
      ∀ other ∈ w.children, (edit' other).outcome = .ok (edit' other).count :=
    hedits.forall_mem_iff fun _ _ => Edited.Alike.ok_iff
  by_cases hok : ∀ child ∈ v.children, (edit child).outcome = .ok (edit child).count
  · rw [editChildren_of_ok hok, editChildren_of_ok (hiff.1 hok),
      hedits.sum_eq fun _ _ => Edited.Alike.count_eq, Value.withChildren_map,
      Value.withChildren_map]
    refine .done _ rfl rfl (h.revise fun step child other mem _ hother => .some ?_)
    exact (hedit hother).value_of_ok (hok child (mem_children_of_mem_childNodes mem))
  · exact .of_not_ok (fun h => hok (ok_of_editChildren h))
      fun h => hok (hiff.2 (ok_of_editChildren h))

/-- Edits of counterparts under a choice that treats both the same. -/
theorem editIf_alike {choose : Value → Bool} (h : Counterparts same v w)
    (hchoose : choose v = choose w) (hedit : Edited.Alike same (edit v) (edit' w)) :
    Edited.Alike same (editIf choose edit v) (editIf choose edit' w) := by
  rw [editIf, editIf, hchoose]
  split
  · exact hedit
  · exact .unchanged h

/-! ### One segment -/

variable (create : Bool)
  (hassign : ∀ {v w}, Counterparts same v w → Edited.Alike same (edit v) (edit' w))
include hassign

/-- Assigning in the member of the same name. Objects with counterparts have the member both or
neither, so the two sides go the same way. -/
theorem assignMember_alike (name : String) (h : Counterparts same v w) :
    Edited.Alike same (assignMember edit create name v) (assignMember edit' create name w) := by
  have hkind := h.kind_eq
  cases v with
  | object members =>
    cases w with
    | object others =>
      have htakes : (object members).Takes (.key name) := trivial
      have hchild := h.rel_child? (.key name)
      rw [child?, child?] at hchild
      rw [assignMember, assignMember]
      cases hv : Members.get? members name with
      | some child =>
        obtain ⟨other, hw, hother⟩ := exists_of_rel_some hchild hv
        rw [hw]
        exact (hassign hother).within (h.putChild htakes)
      | none =>
        rw [eq_none_of_rel hchild hv]
        cases create with
        | false => exact .unchanged h
        -- Both objects get the member, and keep it if something was assigned in it.
        | true => exact (hassign .null).kept h (h.putChild htakes)
    | _ => cases hkind
  | _ =>
    cases w with
    | object => cases hkind
    | _ => exact .refused _ _

/-- Assigning in the item at the same index. Arrays with counterparts are equally long, so that the
index resolves to the same place and the limits refuse both or neither. -/
theorem assignItem_alike (limits : Limits) (i : Int) (h : Counterparts same v w) :
    Edited.Alike same (assignItem edit create limits i v)
      (assignItem edit' create limits i w) := by
  have hkind := h.kind_eq
  cases v with
  | array items =>
    cases w with
    | array others =>
      have hlength := h.length_items
      rw [assignItem, assignItem, ← hlength]
      cases hplace : resolveIndex items.length i with
      | none => exact .refused _ _
      | some place =>
        have hchild := h.rel_child? (.item place)
        have htakes : (array items).Takes (.item place) := trivial
        have hput {child other : Value} (hother : Counterparts same child other) :=
          h.putChild htakes hother
        rw [child?, child?] at hchild
        simp only [putChild, ← hlength] at hput
        cases hv : items[place]? with
        | some child =>
          obtain ⟨other, hw, hother⟩ := exists_of_rel_some hchild hv
          obtain ⟨lt, -⟩ := List.getElem?_eq_some_iff.1 hv
          simp only [lt, if_true] at hput
          simp only [hv, hw]
          exact (hassign hother).within hput
        | none =>
          have ge : ¬place < items.length := Nat.not_lt.2 (List.getElem?_eq_none_iff.1 hv)
          simp only [ge, if_false] at hput
          simp only [hv, eq_none_of_rel hchild hv]
          cases create with
          | false => exact .unchanged h
          | true =>
            cases limits.refuses items.length place with
            | true => exact .refused _ _
            | false => exact (hassign .null).kept h hput
    | _ => cases hkind
  | _ =>
    cases w with
    | array => cases hkind
    | _ => exact .refused _ _

end

/-! ### Paths -/

section
variable {same : Binary64 → Binary64 → Prop} {v w new new' : Value}
  (hsame : ∀ x y, same x y → x.position? = y.position?)
include hsame

/-- A segment that fans out accepts both counterparts or neither. -/
theorem accepts_eq (segment : Segment) (h : Counterparts same v w) :
    segment.accepts v = segment.accepts w := by
  cases segment with
  | filter condition => exact h.holds_eq hsame condition
  | _ => rfl

/-- Assigning counterparts along the same segments. -/
theorem assign_alike (limits : Limits) (hnew : Counterparts same new new')
    (segments : List Segment) (h : Counterparts same v w) :
    Edited.Alike same (assign limits new segments v) (assign limits new' segments w) := by
  induction segments generalizing v w with
  | nil => exact .done 1 rfl rfl hnew
  | cons segment rest ih =>
    obtain hsingle | hfans | rfl := segment.cases_kind
    · have hcontainer : ∀ {v w}, v ≠ .null → w ≠ .null → Counterparts same v w →
          Edited.Alike same (assign limits new (segment :: rest) v)
            (assign limits new' (segment :: rest) w) := by
        intro v w hv hw h
        rw [assign_cons_of_ne_null hv, assign_cons_of_ne_null hw]
        cases segment with
        | property name => exact assignMember_alike (mayCreate rest) ih name h
        | index i => exact assignItem_alike (mayCreate rest) ih limits i h
        | _ => cases hsingle
      -- A null on one side is one on the other, and both become the same empty container.
      by_cases hv : v = .null
      · obtain rfl := hv
        obtain rfl := h.eq_null_iff.1 rfl
        have hmade := containerFor_ne_null hsingle
        have hedit := hcontainer hmade hmade ?_
        · rw [assign_null hsingle, assign_null hsingle, hedit.any_eq]
          split
          · exact hedit
          · exact hedit.within fun _ => .null
        · cases segment with
          | property => exact .emptyObject
          | index => exact .emptyArray
          | _ => cases hsingle
      · exact hcontainer hv (fun hw => hv (h.eq_null_iff.2 hw)) h
    · -- Kinds agree, so that both sides are refused or neither is.
      have hdivisible : v.Divisible ↔ w.Divisible := by
        rw [Divisible, Divisible, h.kind_eq]
      rcases assign_fansOut hfans limits rest v with ⟨hv, eq⟩ | ⟨hv, eq⟩
      · rcases assign_fansOut hfans limits rest w with ⟨-, eq'⟩ | ⟨hw, -⟩
        · rw [eq, eq']
          exact .refused _ _
        · exact absurd (hdivisible.2 hw) hv
      · rcases assign_fansOut hfans limits rest w with ⟨hw, -⟩ | ⟨-, eq'⟩
        · exact absurd (hdivisible.1 hv) hw
        · rw [eq, eq']
          exact editChildren_alike h fun hchild =>
            editIf_alike hchild (accepts_eq hsame segment hchild) (ih hchild)
    · rw [assign_descent, assign_descent]
      exact .refused _ _

end

end JsonDoc
