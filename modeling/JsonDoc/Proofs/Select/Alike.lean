import JsonDoc.Proofs.Remove.Gone
import JsonDoc.Proofs.Value.Counterparts

/-!
# `JsonDoc.Proofs.Select.Alike`: questions do not see the order of members

A condition holds of both or of neither of two counterparts (`holds_eq`), and a path leads to
counterparts of the same nodes, at the same locations and equally often; only the order in which
they are found may differ (`rel_select`). The walk gives up in both or in neither.

The relation between numbers is left open. All that a question needs of it is that related numbers
stand at the same position, so that they compare with every other number in the same way.
-/

set_option autoImplicit false

namespace JsonDoc.Value.Counterparts

open Number

section
variable {same : Binary64 → Binary64 → Prop} {v w : Value}
  (hsame : ∀ x y, same x y → x.position? = y.position?)

/-! ### Conditions -/

/-- The value that a field leads to in the one has a counterpart in the other. -/
theorem rel_resolve (h : Counterparts same v w) (field : Field) :
    Option.Rel (Counterparts same) (field.resolve v) (field.resolve w) := by
  induction field generalizing v w with
  | nil => exact .some h
  | cons name field ih =>
    rw [Field.resolve_cons, Field.resolve_cons]
    exact rel_bind (h.rel_child? (.key name)) fun _ _ => ih

include hsame

/-- Values with the same head compare in the same way with a literal. -/
theorem compares_eq (h : SameHead same v w) (literal : Literal) (op : Comparison) :
    literal.compares op v = literal.compares op w := by
  rw [SameHead.eq_def] at h
  split at h
  · rfl
  · rw [h]
  · next x y =>
    cases literal with
    | number z =>
      simp only [Literal.compares, Value.number?, Option.any_some, Binary64.order, hsame x y h]
    | _ => rfl
  · rw [h]
  · cases literal <;> rfl
  · cases literal <;> rfl
  · exact h.elim

/-- A condition holds of both counterparts or of neither. -/
theorem holds_eq (h : Counterparts same v w) (condition : Condition) :
    condition.holds v = condition.holds w := by
  induction condition with
  | compare field op literal =>
    exact any_eq_of_rel (h.rel_resolve field) fun u u' hu =>
      compares_eq hsame hu.alike.sameHead literal op
  | present field => exact isSome_eq_of_rel (h.rel_resolve field)
  | and left right ihl ihr => rw [Condition.holds, Condition.holds, ihl, ihr]
  | or left right ihl ihr => rw [Condition.holds, Condition.holds, ihl, ihr]

/-! ### Segments -/

/-- A segment takes a child exactly if it takes the counterpart of that child. -/
theorem takes_eq (h : Counterparts same v w) (segment : Segment) {node other : Step × Value}
    (hstep : node.1 = other.1) (hchild : Counterparts same node.2 other.2) :
    segment.takes v node = segment.takes w other := by
  obtain ⟨children, hrel, hperm⟩ := h.permuted_children
  have hlength : v.children.length = w.children.length :=
    hrel.length_eq.trans hperm.length_eq
  cases segment with
  | property name => simp only [Segment.takes, hstep]
  | index i => simp only [Segment.takes, hstep, hlength]
  | filter condition => exact hchild.holds_eq hsame condition
  | _ => rfl

/-- A segment leads to counterparts under the same steps. -/
theorem permuted_choose (h : Counterparts same v w) (segment : Segment) :
    Permuted (fun node other => node.1 = other.1 ∧ Counterparts same node.2 other.2)
      (segment.choose v) (segment.choose w) := by
  rw [choose_eq_filter segment h.left.stepsDiffer, choose_eq_filter segment h.right.stepsDiffer]
  refine h.permuted_childNodes.filter ?_
  rintro node other ⟨hstep, hchild⟩
  exact h.takes_eq hsame segment hstep hchild

end

end JsonDoc.Value.Counterparts

namespace JsonDoc

open Number Value

/-! ### Walks -/

/-- A walk that finds something below every child finds all of it. -/
theorem gather_of_found {walk : Value → Option (List Node)} {children : List (Step × Value)}
    (h : ∀ child ∈ children, walk child.2 = some ((walk child.2).getD [])) :
    gather walk children = some
      (children.flatMap fun child => ((walk child.2).getD []).map (Node.under child.1)) := by
  induction children with
  | nil => exact gather_nil walk
  | cons child children ih =>
    obtain ⟨hchild, hchildren⟩ := List.forall_mem_cons.1 h
    rw [gather_cons, hchild, ih hchildren, List.flatMap_cons]
    rfl

section
variable {same : Binary64 → Binary64 → Prop}

/-- Nodes at the same location with counterparts as values. -/
def SameNodes (same : Binary64 → Binary64 → Prop) (node other : Node) : Prop :=
  node.location = other.location ∧ Counterparts same node.value other.value

/-- Walks that find the same below counterparts, or give up, do so below all children together. -/
theorem rel_gather {walk walk' : Value → Option (List Node)} {children others : List (Step × Value)}
    (h : Permuted (fun node other => node.1 = other.1 ∧ Counterparts same node.2 other.2) children
      others)
    (hwalk : ∀ {v w}, Counterparts same v w →
      Option.Rel (Permuted (SameNodes same)) (walk v) (walk' w)) :
    Option.Rel (Permuted (SameNodes same)) (gather walk children) (gather walk' others) := by
  -- The walks give up together, or find something below every child on both sides.
  by_cases hgivesUp : ∃ child ∈ children, walk child.2 = none
  · rw [gather_eq_none_iff.2 hgivesUp, gather_eq_none_iff.2 ?_]
    · exact .none
    · obtain ⟨child, mem, hnone⟩ := hgivesUp
      obtain ⟨other, mem', -, hother⟩ := h.exists_of_mem mem
      exact ⟨other, mem', eq_none_of_rel (hwalk hother) hnone⟩
  · have hfound : ∀ child ∈ children, walk child.2 = some ((walk child.2).getD []) := by
      intro child mem
      cases hchild : walk child.2 with
      | none => exact absurd ⟨child, mem, hchild⟩ hgivesUp
      | some nodes => rfl
    have hfound' : ∀ other ∈ others, walk' other.2 = some ((walk' other.2).getD []) := by
      intro other mem
      obtain ⟨child, mem', -, hchild⟩ := h.symm.exists_of_mem mem
      obtain ⟨nodes, hnodes, -⟩ := exists_of_rel_some (hwalk hchild) (hfound child mem')
      rw [hnodes, Option.getD_some]
    rw [gather_of_found hfound, gather_of_found hfound']
    -- Child by child the nodes correspond, up to their order.
    refine .some (h.flatMap ?_)
    rintro ⟨step, child⟩ ⟨_, other⟩ ⟨rfl, hchild⟩
    have hnodes : Permuted (SameNodes same) ((walk child).getD []) ((walk' other).getD []) := by
      have hrel := hwalk hchild
      cases hv : walk child with
      | none =>
        rw [eq_none_of_rel hrel hv]
        exact ⟨[], .nil, .nil⟩
      | some nodes =>
        obtain ⟨nodes', hw, hperm⟩ := exists_of_rel_some hrel hv
        rw [hw]
        exact hperm
    refine hnodes.map ?_
    rintro node node' ⟨hlocation, hvalue⟩
    exact ⟨congrArg (step :: ·) hlocation, hvalue⟩

/-- Descents through counterparts find counterparts, and give up together. Induction on the
budget. -/
theorem rel_descend {walk walk' : Nat → Value → Option (List Node)}
    (hwalk : ∀ budget {v w}, Counterparts same v w →
      Option.Rel (Permuted (SameNodes same)) (walk budget v) (walk' budget w))
    (budget : Nat) {v w : Value} (h : Counterparts same v w) :
    Option.Rel (Permuted (SameNodes same)) (descend walk budget v) (descend walk' budget w) := by
  induction budget generalizing v w with
  | zero => exact .none
  | succ budget ih =>
    have hbelow := rel_gather h.permuted_childNodes ih
    refine rel_bind (hwalk (budget + 1) h) fun here here' hnodes => ?_
    refine rel_bind hbelow fun below below' hmore => ?_
    exact .some (hnodes.append hmore)

/-- Segments lead to counterparts of the same nodes. -/
theorem rel_select (hsame : ∀ x y, same x y → x.position? = y.position?) (segments : List Segment)
    (budget : Nat) {v w : Value} (h : Counterparts same v w) :
    Option.Rel (Permuted (SameNodes same)) (select segments budget v)
      (select segments budget w) := by
  induction segments generalizing budget v w with
  | nil => exact .some ⟨[⟨[], w⟩], .cons ⟨rfl, h⟩ .nil, .refl _⟩
  | cons segment rest ih =>
    by_cases hdescent : segment = .descent
    · subst hdescent
      have hwalk : ∀ budget {v w}, Counterparts same v w →
          Option.Rel (Permuted (SameNodes same)) (select rest budget v) (select rest budget w) :=
        ih
      exact rel_descend hwalk budget h
    · rw [select_cons hdescent, select_cons hdescent]
      exact rel_gather (h.permuted_choose hsame segment) (ih budget)

end

end JsonDoc
