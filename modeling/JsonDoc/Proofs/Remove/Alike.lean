import JsonDoc.Proofs.Edit.Alike
import JsonDoc.Proofs.Remove.Depth

/-!
# `JsonDoc.Proofs.Remove.Alike`: documents that are equal answer alike

Removing along the same segments in counterparts is alike, as assigning is (`remove_alike`). A
segment leads to counterparts in both, so that the removal fails below one of the children in both
or in neither; a descent goes on in what is left at the node, which are counterparts again.

With this every operation of a path respects the equality of documents
(`Path.respects_equality`), in which objects are compared without regard to the order of members.
-/

set_option autoImplicit false

namespace JsonDoc

open Number Value

section
variable {same : Binary64 → Binary64 → Prop} {v w : Value} {limit : Nat}

/-! ### Descents -/

/-- Nodes counted in front on both sides leave edits alike. -/
theorem Edited.Alike.countMore {edited other : Edited Value Nat}
    (h : Edited.Alike same edited other) (n : Nat) :
    Edited.Alike same ⟨edited.value, countMore n edited.outcome⟩
      ⟨other.value, countMore n other.outcome⟩ := by
  cases h with
  | failed e e' left right => exact .failed e e' (by rw [left]; rfl) (by rw [right]; rfl)
  | done m left right value => exact .done (n + m) (by rw [left]; rfl) (by rw [right]; rfl) value

/-- A descent that fails at a node fails. -/
theorem removeBelow_error {edit : Nat → Value → Edited Value Nat} {budget : Nat} {e : Error}
    (h : (edit (budget + 1) v).outcome = .error e) :
    (removeBelow limit edit (budget + 1) v).outcome = .error e := by
  rw [removeBelow]
  generalize edit (budget + 1) v = edited at h ⊢
  obtain ⟨left, outcome⟩ := edited
  cases h
  rfl

/-- Descents through counterparts remove alike. Induction on the budget. -/
theorem removeBelow_alike {edit edit' : Nat → Value → Edited Value Nat}
    (hedit : ∀ budget {v w}, Counterparts same v w →
      Edited.Alike same (edit budget v) (edit' budget w))
    (budget : Nat) (h : Counterparts same v w) :
    Edited.Alike same (removeBelow limit edit budget v) (removeBelow limit edit' budget w) := by
  induction budget generalizing v w with
  | zero => exact .refused _ _
  | succ budget ih =>
    cases hedit (budget + 1) h with
    | failed e e' left right =>
      exact .failed e e' (removeBelow_error left) (removeBelow_error right)
    | done n left right value =>
      rw [removeBelow_succ left, removeBelow_succ right]
      exact (editChildren_alike value ih).countMore n

/-! ### Other segments -/

variable (hsame : ∀ x y, same x y → x.position? = y.position?)
include hsame

/-- What a segment leads to revised in the same way in both. -/
theorem Value.Counterparts.segment_revise {f g : Value → Option Value} (h : Counterparts same v w)
    (segment : Segment)
    (hfg : ∀ node ∈ segment.choose v, ∀ other, (node.1, other) ∈ segment.choose w →
      Counterparts same node.2 other → Option.Rel (Counterparts same) (f node.2) (g other)) :
    Counterparts same (segment.revise f v) (segment.revise g w) := by
  refine h.revise fun step child other mem mem' hother => ?_
  have heq : segment.takes v (step, child) = segment.takes w (step, other) :=
    h.takes_eq hsame segment rfl hother
  rw [← heq]
  cases htakes : segment.takes v (step, child) with
  | false => exact .some hother
  | true =>
    refine hfg (step, child) ((mem_choose h.left.stepsDiffer).2 ⟨mem, htakes⟩) other ?_ hother
    exact (mem_choose h.right.stepsDiffer).2 ⟨mem', heq ▸ htakes⟩

/-- The last segment. -/
theorem removeHere_alike (segment : Segment) (h : Counterparts same v w) :
    Edited.Alike same ⟨(removeHere segment v).1, .ok (removeHere segment v).2⟩
      ⟨(removeHere segment w).1, .ok (removeHere segment w).2⟩ := by
  by_cases hdescent : segment = .descent
  · subst hdescent
    have hleft (v : Value) : removeHere .descent v = (v, 0) := by cases v <;> rfl
    rw [hleft, hleft]
    exact .unchanged h
  · obtain ⟨nodes, hrel, hperm⟩ := h.permuted_choose hsame segment
    have hcount : (segment.choose v).length = (segment.choose w).length :=
      hrel.length_eq.trans hperm.length_eq
    have hvalue := h.segment_revise hsame (f := fun _ => none) (g := fun _ => none) segment
      fun _ _ _ _ _ => .none
    rw [removeHere_eq hdescent h.left.stepsDiffer, removeHere_eq hdescent h.right.stepsDiffer,
      hcount]
    exact .done _ rfl rfl hvalue

/-- A segment before the last one. -/
theorem remove_cons_alike {segment : Segment} {rest : List Segment} {budget : Nat}
    (hdescent : segment ≠ .descent) (hrest : rest ≠ [])
    (hremove : ∀ {v w}, Counterparts same v w →
      Edited.Alike same (remove limit rest budget v) (remove limit rest budget w))
    (h : Counterparts same v w) :
    Edited.Alike same (remove limit (segment :: rest) budget v)
      (remove limit (segment :: rest) budget w) := by
  have hedits : Permuted (fun node other => Edited.Alike same (remove limit rest budget node.2)
      (remove limit rest budget other.2)) (segment.choose v) (segment.choose w) :=
    (h.permuted_choose hsame segment).imp fun _ _ _ _ hnode => hremove hnode.2
  -- A child where one side fails has a counterpart where the other does.
  have hiff : (∀ node ∈ segment.choose v, (remove limit rest budget node.2).outcome
        = .ok (remove limit rest budget node.2).count) ↔
      ∀ node ∈ segment.choose w, (remove limit rest budget node.2).outcome
        = .ok (remove limit rest budget node.2).count :=
    hedits.forall_mem_iff fun _ _ => Edited.Alike.ok_iff
  by_cases hok : ∀ node ∈ segment.choose v, (remove limit rest budget node.2).outcome
      = .ok (remove limit rest budget node.2).count
  · rw [remove_cons_of_ok hdescent hrest h.left.stepsDiffer hok,
      remove_cons_of_ok hdescent hrest h.right.stepsDiffer (hiff.1 hok),
      hedits.sum_eq fun _ _ => Edited.Alike.count_eq]
    have hvalue : Counterparts same
        (segment.revise (fun child => some (remove limit rest budget child).value) v)
        (segment.revise (fun child => some (remove limit rest budget child).value) w) :=
      h.segment_revise hsame segment fun node mem other _ hother =>
        .some ((hremove hother).value_of_ok (hok node mem))
    exact .done _ rfl rfl hvalue
  · exact .of_not_ok (fun h => hok (ok_of_remove_cons hdescent hrest h))
      fun h => hok (hiff.2 (ok_of_remove_cons hdescent hrest h))

/-- Removing along the same segments. -/
theorem remove_alike (segments : List Segment) (budget : Nat) (h : Counterparts same v w) :
    Edited.Alike same (remove limit segments budget v) (remove limit segments budget w) := by
  induction segments generalizing budget v w with
  | nil => exact .unchanged h
  | cons segment rest ih =>
    cases rest with
    | nil => exact removeHere_alike hsame segment h
    | cons next rest =>
      by_cases hdescent : segment = .descent
      · subst hdescent
        exact removeBelow_alike (fun budget _ _ => ih budget) budget h
      · exact remove_cons_alike hsame hdescent (List.cons_ne_nil next rest) (ih budget) h

/-! ### Whole paths -/

omit hsame in
/-- The whole edits succeed both or fail both, and those that succeed leave counterparts. -/
theorem Edited.Alike.finish {edited other : Edited Value Nat} (h : Edited.Alike same edited other)
    (path : Path) :
    ((edited.finish path).outcome = .ok () ↔ (other.finish path).outcome = .ok ()) ∧
      ((edited.finish path).outcome = .ok () →
        Counterparts same (edited.finish path).value (other.finish path).value) := by
  rw [finish_outcome_eq_ok_iff, finish_outcome_eq_ok_iff, finish_value, finish_value, h.any_eq]
  refine ⟨Iff.rfl, fun hany => ?_⟩
  cases h with
  | failed e e' left right =>
    rw [any, right] at hany
    cases hany
  | done n left right value => exact value

/-- A call to set succeeds in both counterparts or in neither, and leaves counterparts if it
does. -/
theorem Path.set_alike {new : Value} (path : Path) (limits : Limits) (h : Counterparts same v w)
    (hnew : Counterparts same new new) :
    ((path.set limits v new).outcome = .ok () ↔ (path.set limits w new).outcome = .ok ()) ∧
      ((path.set limits v new).outcome = .ok () →
        Counterparts same (path.set limits v new).value (path.set limits w new).value) := by
  have hrefused {e e' : Error} (hv : (path.set limits v new).outcome = .error e)
      (hw : (path.set limits w new).outcome = .error e') :
      ((path.set limits v new).outcome = .ok () ↔ (path.set limits w new).outcome = .ok ()) ∧
        ((path.set limits v new).outcome = .ok () →
          Counterparts same (path.set limits v new).value (path.set limits w new).value) := by
    simp [hv, hw]
  cases hsegments : path.segments with
  | nil => exact hrefused (by rw [set, hsegments]) (by rw [set, hsegments])
  | cons segment rest =>
    have hpath : path.segments ≠ [] := hsegments ▸ List.cons_ne_nil segment rest
    -- A null is refused at once, on both sides.
    by_cases hroot : v = .null
    · subst hroot
      obtain rfl := h.eq_null_iff.1 rfl
      exact hrefused (by rw [set, hsegments]) (by rw [set, hsegments])
    · have hroot' : w ≠ .null := fun hw => hroot (h.eq_null_iff.2 hw)
      rw [set_eq hpath hroot, set_eq hpath hroot']
      exact (assign_alike hsame limits hnew path.segments h).finish path

/-- A call to delete succeeds in both counterparts or in neither, and leaves counterparts if it
does. -/
theorem Path.delete_alike (path : Path) (limits : Limits) (h : Counterparts same v w) :
    ((path.delete limits v).outcome = .ok () ↔ (path.delete limits w).outcome = .ok ()) ∧
      ((path.delete limits v).outcome = .ok () →
        Counterparts same (path.delete limits v).value (path.delete limits w).value) := by
  by_cases hpath : path.segments = []
  · simp [delete, hpath]
  · rw [delete_eq hpath, delete_eq hpath]
    exact (remove_alike hsame path.segments (limits.maxDepth + 1) h).finish path

/-- A path leads to counterparts in both, or gives up in both. -/
theorem Path.getAll_alike (path : Path) (limits : Limits) (h : Counterparts same v w) :
    path.getAll limits v = .error (.tooDeep limits.maxDepth) ∧
        path.getAll limits w = .error (.tooDeep limits.maxDepth) ∨
      ∃ values others, path.getAll limits v = .ok values ∧ path.getAll limits w = .ok others ∧
        Permuted (Counterparts same) values others := by
  have hrel := rel_select hsame path.segments (limits.maxDepth + 1) h
  rw [getAll, getAll, nodes, nodes]
  cases hv : select path.segments (limits.maxDepth + 1) v with
  | none =>
    rw [eq_none_of_rel hrel hv]
    exact .inl ⟨rfl, rfl⟩
  | some nodes =>
    obtain ⟨others, hw, hnodes⟩ := exists_of_rel_some hrel hv
    rw [hw]
    exact .inr ⟨_, _, rfl, rfl, hnodes.map fun _ _ => And.right⟩

end

/-- Equal documents, whose objects may list their members in different orders, answer alike. Along
every path, reading gives up in both, or it finds the same values up to order and equality; every
condition holds of both or of neither; assigning a value, and deleting, succeeds in both or fails
in both, and leaves equal documents where it succeeds. -/
theorem Path.respects_equality (path : Path) (limits : Limits) {a b new : Value}
    (ha : a.WellFormed) (hb : b.WellFormed) (hab : (a == b) = true) (hnew : new.WellFormed)
    (hself : (new == new) = true) :
    (path.getAll limits a = .error (.tooDeep limits.maxDepth) ∧
          path.getAll limits b = .error (.tooDeep limits.maxDepth) ∨
        ∃ values others, path.getAll limits a = .ok values ∧ path.getAll limits b = .ok others ∧
          Permuted (fun v w => (v == w) = true) values others) ∧
      (∀ condition : Condition, condition.holds a = condition.holds b) ∧
      (((path.set limits a new).outcome = .ok () ↔ (path.set limits b new).outcome = .ok ()) ∧
        ((path.set limits a new).outcome = .ok () →
          ((path.set limits a new).value == (path.set limits b new).value) = true)) ∧
      ((path.delete limits a).outcome = .ok () ↔ (path.delete limits b).outcome = .ok ()) ∧
        ((path.delete limits a).outcome = .ok () →
          ((path.delete limits a).value == (path.delete limits b).value) = true) := by
  have hsame (x y : Binary64) (h : x.equals y = true) : x.position? = y.position? := by
    obtain ⟨place, hx, hy⟩ := Binary64.equals_iff.1 h
    rw [hx, hy]
  -- Equality of documents is to be counterparts for the equality of numbers.
  have hequal {v w : Value} (h : Counterparts (fun x y => x.equals y = true) v w) :
      (v == w) = true := (beq_iff_alike h.left h.right).2 h.alike
  have h : Counterparts (fun x y => x.equals y = true) a b := ⟨(beq_iff_alike ha hb).1 hab, ha, hb⟩
  have hnew' : Counterparts (fun x y => x.equals y = true) new new :=
    ⟨(beq_iff_alike hnew hnew).1 hself, hnew, hnew⟩
  obtain ⟨hset, hassigned⟩ := Path.set_alike hsame path limits h hnew'
  obtain ⟨hdelete, hremoved⟩ := Path.delete_alike hsame path limits h
  refine ⟨?_, h.holds_eq hsame, ⟨hset, fun hok => hequal (hassigned hok)⟩, hdelete,
    fun hok => hequal (hremoved hok)⟩
  refine (Path.getAll_alike hsame path limits h).imp_right ?_
  rintro ⟨values, others, hvalues, hothers, hperm⟩
  exact ⟨values, others, hvalues, hothers, hperm.imp fun _ _ _ _ => hequal⟩

/-- Members in another order, and the zeros of both signs: what is found comes in another order,
and the documents stay equal but not the same. -/
theorem Path.respects_equality_swapped :
    ∃ path : Path, ∃ a b : Value, Path.compile "$.*.n" = .ok path ∧ a ≠ b ∧ (a == b) = true ∧
      path.getAll ⟨8, 8, 16⟩ a ≠ path.getAll ⟨8, 8, 16⟩ b ∧
      (∃ values others, path.getAll ⟨8, 8, 16⟩ a = .ok values ∧
        path.getAll ⟨8, 8, 16⟩ b = .ok others ∧
        Permuted (fun v w => (v == w) = true) values others) ∧
      (path.set ⟨8, 8, 16⟩ a (.bool true)).outcome = .ok () ∧
      ((path.set ⟨8, 8, 16⟩ a (.bool true)).value ==
        (path.set ⟨8, 8, 16⟩ b (.bool true)).value) = true ∧
      (path.delete ⟨8, 8, 16⟩ a).outcome = .ok () ∧
      ((path.delete ⟨8, 8, 16⟩ a).value == (path.delete ⟨8, 8, 16⟩ b).value) = true := by
  let path : Path := ⟨"$.*.n", [.wildcard, .property "n"]⟩
  let a : Value := .object [("u", .object [("n", .number .zero)]), ("v", .object [("n", .null)])]
  let b : Value :=
    .object [("v", .object [("n", .null)]), ("u", .object [("n", .number Binary64.zero.neg)])]
  have ha : a.WellFormed := by simp [a, Members.keys]
  have hb : b.WellFormed := by simp [b, Members.keys]
  have hnew : (Value.bool true).WellFormed := trivial
  have hpath : Path.compile "$.*.n" = .ok path := by decide +kernel
  obtain ⟨hread, -, ⟨-, hset⟩, -, hdelete⟩ :=
    Path.respects_equality path ⟨8, 8, 16⟩ ha hb rfl hnew rfl
  have hvalues : path.getAll ⟨8, 8, 16⟩ a = .ok [.number .zero, .null] := rfl
  have hothers : path.getAll ⟨8, 8, 16⟩ b = .ok [.null, .number Binary64.zero.neg] := rfl
  refine ⟨path, a, b, hpath, by simp [a, b], rfl, ?_, ?_, rfl, hset rfl, rfl, hdelete rfl⟩
  · rw [hvalues, hothers]
    simp
  · exact hread.resolve_left fun h => by rw [hvalues] at h; cases h.1

end JsonDoc
