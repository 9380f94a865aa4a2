import JsonDoc.Proofs.Edit.Step

/-!
# `JsonDoc.Proofs.Edit.Undo`: what an assignment undoes

An assignment that assigned nothing leaves a node as it was, if it came to its end without a
failure, if it did not fan out, or if a descent stands in its way. In the first case every step
of it assigned nothing. Without fanning out there is one child at most, and what was made for it
is undone where it was made. A descent stands in the way of every value.

The case that is left out is a fan-out that fails: what it assigned in earlier children stays.

* `assign_restores` is the induction over the segments, for all three.
* `Path.set_restores` tells it of whole calls.
-/

set_option autoImplicit false

namespace JsonDoc

/-- An edit that changes none of the children changes nothing. -/
theorem editChildren_value_eq_self {edit : Value → Edited Value Nat} {v : Value}
    (h : ∀ child ∈ v.children, (edit child).value = child) : (editChildren edit v).value = v := by
  have hsame {children : List Value} (sub : ∀ child ∈ children, child ∈ v.children) :
      (children.map fun child => (edit child).value) = children := by
    refine (List.map_congr_left fun child mem => h child (sub child mem)).trans ?_
    exact List.map_id _
  have hvalue : (editEach edit [] 0 v.children).value = v.children := by
    cases eachRun edit v.children with
    | all each outcome value => rw [value, hsame fun _ mem => mem]
    | failed before child after e split each here outcome value =>
      rw [value, h child (by simp [split]), hsame (by simp +contextual [split]), split]
  rw [editChildren, hvalue, Value.withChildren_self]

/-- Nothing is assigned along segments with a descent among them. -/
theorem assign_any_of_descent {limits : Limits} {new : Value} {segments : List Segment}
    (h : .descent ∈ segments) (v : Value) : (assign limits new segments v).any = false := by
  induction segments generalizing v with
  | nil => cases h
  | cons segment rest ih =>
    by_cases hsegment : segment = .descent
    · rw [hsegment, assign_descent]
      rfl
    · -- The descent is among the later segments, which then reach nothing at any child.
      have ih := ih ((List.mem_cons.1 h).resolve_left (Ne.symm hsegment))
      obtain hsingle | hfans | hdescent := segment.cases_kind
      · cases Segment.entry hsingle limits rest v with
        | closed outcome idle none eq =>
          rw [eq]
          exact idle.any_eq_false v
        | present step child here eq =>
          rw [eq]
          exact ih child
        | missing step none absent takes reaches eq =>
          rw [eq]
          exact ih .null
      · rcases assign_fansOut hfans limits rest v with ⟨-, eq⟩ | ⟨-, eq⟩
        · rw [eq]
          rfl
        · rw [eq, Bool.eq_false_iff]
          intro hany
          obtain ⟨child, -, hchild⟩ := exists_any_of_editEach hany
          exact absurd (accepted_of_editIf_any hchild).2 (Bool.eq_false_iff.1 (ih child))
      · exact absurd hdescent hsegment

/-- What an assignment made is undone if nothing was assigned: it came to its end, or it does not
fan out, or a descent stands in its way. -/
theorem assign_restores {limits : Limits} {new v : Value} {segments : List Segment}
    (hv : v.WellFormed) (hany : (assign limits new segments v).any = false)
    (h : (assign limits new segments v).outcome = .ok 0 ∨
      (∀ segment ∈ segments, segment.fansOut = false) ∨ .descent ∈ segments) :
    (assign limits new segments v).value = v := by
  induction segments generalizing v with
  | nil => cases hany
  | cons segment rest ih =>
    obtain hsingle | hfans | rfl := segment.cases_kind
    · have hrest : (∀ s ∈ segment :: rest, s.fansOut = false) ∨ .descent ∈ segment :: rest →
          (∀ s ∈ rest, s.fansOut = false) ∨ .descent ∈ rest := by
        refine Or.imp (fun h => (List.forall_mem_cons.1 h).2) fun h => ?_
        rcases List.mem_cons.1 h with rfl | h
        · cases hsingle
        · exact h
      cases Segment.entry hsingle limits rest v with
      | closed outcome idle none eq => rw [eq]
      | present step child here eq =>
        rw [eq] at hany h ⊢
        have hchild := child?_of_choose hsingle here
        have hsame := ih (hv.of_child? hchild) hany (h.imp_right hrest)
        rw [hsame, Value.putChild_child? hv.stepsDiffer hchild]
      | missing step none absent takes reaches eq =>
        -- What was made here is taken back here.
        rw [eq, Edited.any_mk_outcome] at hany
        rw [eq, hany]
        rfl
    · rcases assign_fansOut hfans limits rest v with ⟨-, eq⟩ | ⟨-, eq⟩
      · rw [eq]
      · rw [eq] at hany h ⊢
        refine editChildren_value_eq_self fun child mem => ?_
        cases haccepts : segment.accepts child with
        | false => rw [editIf_of_passed_over haccepts]
        | true =>
          rw [editIf_of_accepted haccepts]
          have hchild := hv.of_mem_children mem
          rcases h with h | h | h
          · have hzero := outcome_eq_zero_of_editEach h child mem
            rw [editIf_of_accepted haccepts] at hzero
            exact ih hchild (by rw [Edited.any, hzero]; rfl) (.inl hzero)
          · rw [h segment List.mem_cons_self] at hfans
            cases hfans
          · rcases List.mem_cons.1 h with rfl | h
            · cases hfans
            · exact ih hchild (assign_any_of_descent h child) (.inr (.inr h))
    · rw [assign_descent]

/-- A call to assign that fails leaves the document as it was if nothing was found, if the path
does not fan out, or if it has a descent. A path with a descent always fails so. -/
theorem Path.set_restores {root : Value} (hroot : root.WellFormed) (path : Path) (limits : Limits)
    (new : Value) :
    (∀ e, (path.set limits root new).outcome = .error e →
        (∃ name, e = .notFound name) ∨ (∀ segment ∈ path.segments, segment.fansOut = false) ∨
          .descent ∈ path.segments →
        (path.set limits root new).value = root) ∧
      (.descent ∈ path.segments →
        (∃ e, (path.set limits root new).outcome = .error e) ∧
          (path.set limits root new).value = root) := by
  have hrestores (e : Error) (he : (path.set limits root new).outcome = .error e)
      (h : (∃ name, e = .notFound name) ∨ (∀ segment ∈ path.segments, segment.fansOut = false) ∨
        .descent ∈ path.segments) : (path.set limits root new).value = root := by
    obtain ⟨e', -, eq⟩ | ⟨-, -, eq⟩ := path.set_cases limits root
    · rw [eq]
    · rw [eq] at he ⊢
      rw [Edited.finish_value]
      rcases Edited.finish_outcome_eq_error_iff.1 he with ⟨hzero, -⟩ | herror
      · -- Nothing was found: then nothing was assigned anywhere.
        exact assign_restores hroot (by rw [Edited.any, hzero]; rfl) (.inl hzero)
      · refine assign_restores hroot (by rw [Edited.any, herror]) (.inr (h.resolve_left ?_))
        rintro ⟨name, rfl⟩
        exact assign_ne_notFound _ _ _ _ name herror
  refine ⟨hrestores, fun hdescent => ?_⟩
  have herror : ∃ e, (path.set limits root new).outcome = .error e := by
    cases houtcome : (path.set limits root new).outcome with
    | error e => exact ⟨e, rfl⟩
    | ok u =>
      obtain ⟨e, -, eq⟩ | ⟨-, -, eq⟩ := path.set_cases limits root
      · rw [eq] at houtcome
        cases houtcome
      · rw [eq, Edited.finish_outcome_eq_ok_iff, assign_any_of_descent hdescent] at houtcome
        cases houtcome
  obtain ⟨e, he⟩ := herror
  exact ⟨⟨e, he⟩, hrestores e he (.inr (.inr hdescent))⟩

/-- Two items and two objects are made and taken back, since nothing is found below the last. -/
theorem Path.set_restores_items :
    ∃ path : Path, ∃ root : Value, root.WellFormed ∧
      (path.set ⟨0, 10, 16⟩ root (.bool true)).outcome = .error (.notFound path.text) ∧
      (path.set ⟨0, 10, 16⟩ root (.bool true)).value = root := by
  have hroot : (Value.object [("n", .null), ("list", .array [])]).WellFormed := by
    simp [Members.keys]
  let path : Path := ⟨"$.list[2].n.m[*]",
    [.property "list", .index 2, .property "n", .property "m", .wildcard]⟩
  have hrestores := Path.set_restores hroot path ⟨0, 10, 16⟩ (.bool true)
  exact ⟨path, _, hroot, rfl, hrestores.1 _ rfl (.inl ⟨_, rfl⟩)⟩

end JsonDoc
