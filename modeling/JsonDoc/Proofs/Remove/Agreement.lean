import JsonDoc.Proofs.Path.Normal
import JsonDoc.Proofs.Remove.Removal
import JsonDoc.Proofs.Select.Address

/-!
# `JsonDoc.Proofs.Remove.Agreement`: removing agrees with reading on whether there is anything

A call to delete finds something exactly if reading along the path does, and where reading does not
give up, deleting does not either. Deleting works on a document that changes, but it never goes
down further than the document went at first (`Removal.within`): a descent that was read to its
end has been everywhere below its node, and what is removed there only takes away from that.

As long as nothing is removed the document is what it was. So a removal counts no node exactly if
the segments lead nowhere in the document as it was (`Removal.eq_zero_iff`), and then it has
changed nothing (`Removal.left_eq`).
-/

set_option autoImplicit false

namespace JsonDoc

open Path.Grammar

/-! ### Removals do not fail where reading does not -/

/-- What is left of a value goes down no further than the value. -/
theorem Value.Within.without {v : Value} {n : Nat} (h : v.Within n) (gone : Location → Bool) :
    (v.without gone).Within n := by
  induction n generalizing v gone with
  | zero =>
    refine List.eq_nil_iff_forall_not_mem.2 fun child mem => ?_
    obtain ⟨node, hnode, -⟩ := exists_of_mem_children_without mem
    obtain ⟨m, hm, -⟩ := h.exists_of_mem (mem_children_of_mem_childNodes hnode)
    cases hm
  | succ n ih =>
    intro child mem
    obtain ⟨node, hnode, rfl⟩ := exists_of_mem_children_without mem
    exact ih (h node.2 (mem_children_of_mem_childNodes hnode)) _

/-- A removal makes no value deeper, so that a bound on the depth still holds of what it leaves. -/
theorem Removal.within {segments : List Segment} {budget count n : Nat} {v left : Value}
    (h : Removal segments budget v left count) (hv : v.WellFormed) (hn : v.Within n) :
    left.Within n := by
  obtain ⟨gone, -, rfl⟩ : v.Pruned true left := h.pruned hv nofun
  exact hn.without gone

/-- A descent of a removal does not fail within the budget. -/
theorem exists_ok_removeBelow {limit : Nat} {rest : List Segment} (below : LeadsBelow rest)
    (removes : ∀ {budget v nodes}, v.WellFormed → select rest (budget + 1) v = some nodes →
      ∃ count, (remove limit rest (budget + 1) v).outcome = .ok count)
    {n budget : Nat} {v : Value} (hv : v.WellFormed) (h : v.Within n) (lt : n < budget) :
    ∃ count, (removeBelow limit (remove limit rest) budget v).outcome = .ok count := by
  induction budget generalizing n v with
  | zero => exact absurd lt (Nat.not_lt_zero n)
  | succ budget ih =>
    obtain ⟨nodes, hselect⟩ : ∃ nodes, select rest (budget + 1) v = some nodes :=
      exists_select_of_within h lt
    obtain ⟨here, hhere⟩ := removes hv hselect
    have hremoval := removal_of_ok below hv hhere
    rw [removeBelow_of_ok hhere]
    · exact ⟨_, rfl⟩
    · intro child mem
      -- A step down takes one from the budget, and one from what is left below.
      obtain ⟨m, rfl, hchild⟩ := (hremoval.within hv h).exists_of_mem mem
      obtain ⟨count, hcount⟩ := ih ((hremoval.wellFormed hv).of_mem_children mem) hchild
        (Nat.lt_of_succ_lt_succ lt)
      exact Edited.ok_count hcount

/-- A removal does not fail where a walk along the segments does not give up. -/
theorem exists_ok_of_select {limit : Nat} {segments : List Segment} (below : LeadsBelow segments)
    {budget : Nat} {v : Value} {nodes : List Node} (hv : v.WellFormed)
    (h : select segments (budget + 1) v = some nodes) :
    ∃ count, (remove limit segments (budget + 1) v).outcome = .ok count := by
  induction segments generalizing budget v nodes with
  | nil => exact absurd below id
  | cons segment rest ih =>
    cases rest with
    | nil => exact ⟨_, rfl⟩
    | cons next rest =>
      have hrest : LeadsBelow (next :: rest) := below
      by_cases hsegment : segment = .descent
      · subst hsegment
        rw [remove_cons hrest.ne_nil]
        exact exists_ok_removeBelow hrest (ih hrest) hv (within_of_descend h) (Nat.lt_succ_self _)
      · rw [select_cons hsegment] at h
        rw [remove_cons_of_ok hsegment hrest.ne_nil hv.stepsDiffer]
        · exact ⟨_, rfl⟩
        · intro node mem
          -- The walk has come through every child that the segment chooses.
          obtain ⟨found, hfound⟩ :
              ∃ found, select (next :: rest) (budget + 1) node.2 = some found := by
            rw [← Option.ne_none_iff_exists']
            intro hnone
            rw [gather_eq_none_iff.2 ⟨node, mem, hnone⟩] at h
            cases h
          obtain ⟨count, hcount⟩ :=
            ih hrest (hv.of_mem_children (mem_children_of_mem_choose mem)) hfound
          exact Edited.ok_count hcount

/-! ### Removals that find nothing -/

/-- A removal that finds nothing changes nothing. -/
theorem Removal.left_eq {segments : List Segment} {budget n : Nat} {v left : Value}
    (h : Removal segments budget v left n) (hv : v.WellFormed) (hn : n = 0) : left = v := by
  induction h with
  | last hsegment =>
    exact revise_of_choose_nil hv.stepsDiffer (List.eq_nil_of_length_eq_zero hn) _
  | @pass segment rest budget v left count hsegment below _ ih =>
    rw [List.sum_eq_zero_iff_forall_eq_nat] at hn
    refine (Value.revise_congr fun node mem => ?_).trans v.revise_self
    split
    · next htakes =>
      have hchoose := (mem_choose hv.stepsDiffer).2 ⟨mem, htakes⟩
      dsimp only
      rw [ih node hchoose (hv.of_mem_children (Value.mem_children_of_mem_childNodes mem))
        (hn _ (List.mem_map_of_mem hchoose))]
    · rfl
  | @descend rest budget v here n left count below hhere _ ihhere ihbelow =>
    obtain ⟨rfl, hbelow⟩ := Nat.add_eq_zero_iff.1 hn
    rw [List.sum_eq_zero_iff_forall_eq_nat] at hbelow
    -- Nothing was removed at the node, so that the children are those it had.
    obtain rfl := ihhere hv rfl
    have hleft : here.children.map left = here.children := by
      refine (List.map_congr_left fun child mem => ?_).trans (List.map_id _)
      exact ihbelow child mem (hv.of_mem_children mem) (hbelow _ (List.mem_map_of_mem mem))
    rw [hleft, Value.withChildren_self]

/-- A removal counts no node exactly if the segments lead nowhere. -/
theorem Removal.eq_zero_iff {segments : List Segment} {budget n : Nat} {v left : Value}
    (h : Removal segments budget v left n) (hv : v.WellFormed) :
    n = 0 ↔ ∀ location, ¬Addresses segments v location := by
  induction h with
  | @last segment budget v hsegment =>
    rw [List.length_eq_zero_iff, List.eq_nil_iff_forall_not_mem]
    simp only [addresses_cons hsegment, addresses_nil]
    constructor
    · rintro hnone location ⟨node, mem, -⟩
      exact hnone node mem
    · intro hnone node mem
      exact hnone [node.1] ⟨node, mem, [], rfl, rfl⟩
  | @pass segment rest budget v left count hsegment below _ ih =>
    rw [List.sum_eq_zero_iff_forall_eq_nat]
    simp only [addresses_cons hsegment]
    constructor
    · rintro hzero location ⟨node, mem, tail, htail, -⟩
      have hnode := hv.of_mem_children (mem_children_of_mem_choose mem)
      exact (ih node mem hnode).1 (hzero _ (List.mem_map_of_mem mem)) tail htail
    · intro hnone k mem
      obtain ⟨node, hmem, rfl⟩ := List.mem_map.1 mem
      refine (ih node hmem (hv.of_mem_children (mem_children_of_mem_choose hmem))).2 ?_
      intro tail htail
      exact hnone _ ⟨node, hmem, tail, htail, rfl⟩
  | @descend rest budget v here n left count below hhere _ ihhere ihbelow =>
    rw [Nat.add_eq_zero_iff, ihhere hv, List.sum_eq_zero_iff_forall_eq_nat]
    -- Below the node nothing has changed, if nothing was found at the node.
    have hsame (hnone : ∀ location, ¬Addresses rest v location) : here = v :=
      hhere.left_eq hv ((ihhere hv).2 hnone)
    constructor
    · rintro ⟨hnone, hzero⟩ location h
      obtain h | ⟨node, mem, tail, htail, -⟩ := addresses_descent.1 h
      · exact hnone location h
      · obtain rfl := hsame hnone
        have hchild := Value.mem_children_of_mem_childNodes mem
        exact (ihbelow node.2 hchild (hv.of_mem_children hchild)).1
          (hzero _ (List.mem_map_of_mem hchild)) tail htail
    · intro hnone
      have hhere (location : Location) : ¬Addresses rest v location :=
        fun h => hnone location (addresses_descent.2 (.inl h))
      obtain rfl := hsame hhere
      refine ⟨hhere, fun k mem => ?_⟩
      obtain ⟨child, hchild, rfl⟩ := List.mem_map.1 mem
      refine (ihbelow child hchild (hv.of_mem_children hchild)).2 fun tail htail => ?_
      rw [← here.childNodes_map_snd] at hchild
      obtain ⟨node, hnode, rfl⟩ := List.mem_map.1 hchild
      exact hnone _ (addresses_descent.2 (.inr ⟨node, hnode, tail, htail, rfl⟩))

/-! ### Compiled paths -/

/-- Segments in front do not change how the segments end. -/
theorem LeadsBelow.append {rest : List Segment} (h : LeadsBelow rest) (front : List Segment) :
    LeadsBelow (front ++ rest) := by
  induction front with
  | nil => exact h
  | cons segment front ih =>
    obtain ⟨next, tail, heq⟩ := List.exists_cons_of_ne_nil ih.ne_nil
    rw [List.cons_append, heq, LeadsBelow]
    rwa [heq] at ih

/-- What is written as one piece of a path ends with a segment that is no descent. -/
theorem Path.Grammar.Piece.leadsBelow {piece : List Segment} (h : Piece piece) :
    LeadsBelow piece := by
  cases h with
  | plain hsegment => exact hsegment
  | descent hsegment => exact hsegment

/-- The last segment of a compiled path is no descent. -/
theorem Path.leadsBelow_of_compile {text : String} {path : Path}
    (h : Path.compile text = .ok path) (hroot : path.isRoot = false) :
    LeadsBelow path.segments := by
  obtain ⟨pieces, hpieces, hshape⟩ := (compile_eq_ok_iff.1 h).2.exists_pieces
  rw [isRoot, List.isEmpty_eq_false_iff, ← hpieces] at hroot
  rw [← hpieces]
  rcases List.eq_nil_or_concat pieces with rfl | ⟨front, piece, rfl⟩
  · exact absurd rfl hroot
  · rw [List.concat_eq_append] at hshape ⊢
    rw [List.flatten_append, List.flatten_singleton]
    exact (hshape piece (List.mem_append_right front List.mem_cons_self)).leadsBelow.append _

section
variable {path : Path} {root : Value} {limits : Limits}

/-- The root itself is never deleted. -/
theorem Path.isRoot_eq_false_of_delete (hok : (path.delete limits root).outcome = .ok ()) :
    path.isRoot = false := by
  rw [isRoot, List.isEmpty_eq_false_iff]
  intro hsegments
  rw [delete, hsegments] at hok
  cases hok

/-- A call to delete that succeeds is a removal that succeeds. -/
theorem Path.exists_ok_remove (h : path.segments ≠ [])
    (hok : (path.delete limits root).outcome = .ok ()) :
    ∃ n, (remove limits.maxDepth path.segments (limits.maxDepth + 1) root).outcome = .ok n := by
  rw [Path.delete_eq h, Edited.finish_outcome_eq_ok_iff, Edited.any] at hok
  split at hok
  · next n h => exact ⟨n, h⟩
  · cases hok

end

/-- Where reading along a path does not give up, deleting does not either: it succeeds if reading
finds anything, and otherwise reports that nothing was found and changes nothing. -/
theorem Path.delete_of_getAll {text : String} {path : Path} (hpath : Path.compile text = .ok path)
    (hnotroot : path.isRoot = false) {root : Value} (hroot : root.WellFormed) {limits : Limits}
    {values : List Value} (h : path.getAll limits root = .ok values) :
    (values ≠ [] → (path.delete limits root).outcome = .ok ()) ∧
      (values = [] → path.delete limits root = ⟨root, .error (.notFound text)⟩) ∧
      ∀ limit, (path.delete limits root).outcome ≠ .error (.tooDeep limit) := by
  have below := Path.leadsBelow_of_compile hpath hnotroot
  obtain ⟨nodes, hselect, rfl⟩ := Path.getAll_eq_ok_iff.1 h
  -- A walk that ends within the limit shows that the removal does as well, as it goes down no
  -- further.
  obtain ⟨count, hcount⟩ :
      ∃ n, (remove limits.maxDepth path.segments (limits.maxDepth + 1) root).outcome = .ok n :=
    exists_ok_of_select below hroot hselect
  have hremoval := removal_of_ok below hroot hcount
  -- Both count what is addressed in the document as it was.
  have hzero : count = 0 ↔ nodes = [] :=
    (hremoval.eq_zero_iff hroot).trans (eq_nil_of_select hselect).symm
  have hdelete := Path.delete_eq below.ne_nil limits root
  refine ⟨fun hvalues => ?_, fun hvalues => ?_, fun limit hdeep => ?_⟩
  · have hfound : count ≠ 0 := fun h => hvalues (List.map_eq_nil_iff.2 (hzero.1 h))
    rw [hdelete, Edited.finish_outcome_eq_ok_iff, Edited.any_of_ok hcount]
    exact decide_eq_true (Nat.pos_of_ne_zero hfound)
  · obtain rfl := hzero.2 (List.map_eq_nil_iff.1 hvalues)
    rw [hdelete, Edited.finish, hcount, hremoval.left_eq hroot rfl, (compile_eq_ok_iff.1 hpath).1]
    rfl
  · rw [hdelete, Edited.finish_outcome_eq_error_iff, hcount] at hdeep
    obtain ⟨-, hdeep⟩ | hdeep := hdeep <;> cases hdeep

/-- With no step to spare below the innermost member, two descents find what they remove, and
nothing changes where they find nothing. -/
theorem Path.delete_of_getAll_descents :
    ∃ found absent : Path, ∃ root : Value,
      Path.compile "$..a..a" = .ok found ∧ Path.compile "$..a..b" = .ok absent ∧
        found.getAll ⟨2, 0, 0⟩ root = .ok [.null] ∧ (found.delete ⟨2, 0, 0⟩ root).outcome = .ok () ∧
        absent.delete ⟨2, 0, 0⟩ root = ⟨root, .error (.notFound "$..a..b")⟩ := by
  let found : Path := ⟨"$..a..a", [.descent, .property "a", .descent, .property "a"]⟩
  let absent : Path := ⟨"$..a..b", [.descent, .property "a", .descent, .property "b"]⟩
  let root : Value := .object [("a", .object [("a", .null)])]
  have hfound : Path.compile "$..a..a" = .ok found := by decide +kernel
  have habsent : Path.compile "$..a..b" = .ok absent := by decide +kernel
  have hroot : root.WellFormed := by simp [root, Members.keys]
  have hvalues : found.getAll ⟨2, 0, 0⟩ root = .ok [.null] := rfl
  have hnone : absent.getAll ⟨2, 0, 0⟩ root = .ok [] := rfl
  refine ⟨found, absent, root, hfound, habsent, hvalues, ?_, ?_⟩
  · exact (Path.delete_of_getAll hfound rfl hroot hvalues).1 (List.cons_ne_nil _ _)
  · exact (Path.delete_of_getAll habsent rfl hroot hnone).2.1 rfl

end JsonDoc
