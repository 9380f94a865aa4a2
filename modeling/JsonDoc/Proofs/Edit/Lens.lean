import JsonDoc.Proofs.Edit.Lead

/-!
# `JsonDoc.Proofs.Edit.Lens`: what is read after an assignment

An assignment along members, items and wildcards makes what is missing, and afterwards the path
leads to the assigned value only: `valuesOf_select_assign` says how often, which is the number of
nodes that the assignment reports. So another assignment finds the way made and comes to what it
would have come to without the first, `assign_assign`. Filters are left out: a child that was
chosen need not satisfy the condition any more once a value is assigned in it.

`Path.set_laws` are the three laws of a lens for whole calls.
-/

set_option autoImplicit false

namespace JsonDoc

/-! ### Reading -/

/-- The values of the nodes that a walk finds. -/
def valuesOf (found : Option (List Node)) : Option (List Value) := found.map (·.map Node.value)

/-- The values found below some children, those below the first one in front. -/
theorem valuesOf_gather_cons (walk : Value → Option (List Node)) (node : Step × Value)
    (nodes : List (Step × Value)) :
    valuesOf (gather walk (node :: nodes))
      = (valuesOf (walk node.2)).bind fun here =>
          (valuesOf (gather walk nodes)).map (here ++ ·) := by
  rw [gather_cons]
  cases walk node.2 with
  | none => rfl
  | some here =>
    cases gather walk nodes with
    | none => rfl
    | some below => simp [valuesOf, Function.comp_def, Node.under]

/-- The values found below one child are those that the walk finds there. -/
theorem valuesOf_gather_singleton (walk : Value → Option (List Node)) (step : Step) (v : Value) :
    valuesOf (gather walk [(step, v)]) = valuesOf (walk v) := by
  rw [valuesOf_gather_cons, gather_nil]
  cases valuesOf (walk v) with
  | none => rfl
  | some here => simp [valuesOf]

/-- Where the walk finds copies of a value below each child, it finds all of them together. -/
theorem valuesOf_gather_replicate {walk : Value → Option (List Node)} {new : Value}
    {f : Value → Value} {n : Value → Nat} {nodes : List (Step × Value)}
    (h : ∀ node ∈ nodes, valuesOf (walk (f node.2)) = some (List.replicate (n node.2) new)) :
    valuesOf (gather walk (nodes.map fun node => (node.1, f node.2)))
      = some (List.replicate ((nodes.map Prod.snd).map n).sum new) := by
  induction nodes with
  | nil => rfl
  | cons node nodes ih =>
    obtain ⟨hnode, hnodes⟩ := List.forall_mem_cons.1 h
    rw [List.map_cons, valuesOf_gather_cons, hnode, ih hnodes, List.map_cons, List.map_cons,
      List.sum_cons, ← List.replicate_append_replicate]
    rfl

/-! ### Reading and assigning after an assignment -/

/-- The segment leads to a member, to an item or to all children. -/
def Segment.unconditional (segment : Segment) : Prop := segment.single ∨ segment = .wildcard

/-- Below a null there is nothing. -/
theorem select_null {segments : List Segment} (h : segments ≠ [])
    (hsegments : ∀ s ∈ segments, s.unconditional) (budget : Nat) :
    select segments budget .null = some [] := by
  cases segments with
  | nil => exact absurd rfl h
  | cons segment rest =>
    have hdescent : segment ≠ .descent := by
      rcases hsegments segment List.mem_cons_self with hsingle | rfl
      · exact single_ne_descent hsingle
      · exact Segment.noConfusion
    rw [select_cons hdescent]
    cases segment <;> rfl

/-- A wildcard passes nothing over. -/
theorem editIf_wildcard (edit : Value → Edited Value Nat) :
    editIf Segment.wildcard.accepts edit = edit :=
  funext fun _ => editIf_of_accepted rfl edit

/-- An assignment through a wildcard is one in every child of a container. -/
theorem assign_wildcard {v : Value} (h : v.Divisible) (limits : Limits) (new : Value)
    (rest : List Segment) :
    assign limits new (.wildcard :: rest) v = editChildren (assign limits new rest) v := by
  rcases assign_fansOut (rfl : Segment.wildcard.fansOut) limits rest v with ⟨hscalar, -⟩ | ⟨-, eq⟩
  · exact absurd h hscalar
  · rw [eq, editIf_wildcard]

/-- An assignment that succeeds where all children are chosen succeeds in each. -/
theorem assign_wildcard_of_ok {limits : Limits} {new : Value} {rest : List Segment} {v : Value}
    {n : Nat} (h : (assign limits new (.wildcard :: rest) v).outcome = .ok n) :
    v.Divisible ∧
      (∀ child ∈ v.children, (assign limits new rest child).outcome
        = .ok (assign limits new rest child).count) ∧
      n = (v.children.map fun child => (assign limits new rest child).count).sum ∧
      (assign limits new (.wildcard :: rest) v).value
        = v.withChildren (v.children.map fun child => (assign limits new rest child).value) := by
  by_cases hv : v.Divisible
  · rw [assign_wildcard hv, editChildren] at h ⊢
    cases eachRun (assign limits new rest) v.children with
    | all each outcome value =>
      rw [outcome] at h
      cases h
      exact ⟨hv, each, rfl, by rw [value]⟩
    | failed before child after e split each here outcome value =>
      rw [outcome] at h
      cases h
  · rcases assign_fansOut (rfl : Segment.wildcard.fansOut) limits rest v with ⟨-, eq⟩ | ⟨hv', -⟩
    · -- A scalar is refused, which is no success.
      rw [eq] at h
      cases h
    · exact absurd hv' hv

/-- After an assignment that succeeds, the segments lead to the assigned value, as often as it was
assigned, and to nothing else. -/
theorem valuesOf_select_assign {segments : List Segment}
    (hsegments : ∀ s ∈ segments, s.unconditional)
    {limits : Limits} {new v : Value} {n : Nat} (h : (assign limits new segments v).outcome = .ok n)
    (budget : Nat) :
    valuesOf (select segments budget (assign limits new segments v).value)
      = some (List.replicate n new) := by
  induction segments generalizing v n with
  | nil =>
    cases h
    rfl
  | cons segment rest ih =>
    obtain ⟨hsingle | rfl, hrest⟩ := List.forall_mem_cons.1 hsegments
    · rw [select_cons (single_ne_descent hsingle)]
      cases Segment.entry hsingle limits rest v with
      | closed outcome idle none eq =>
        rw [eq] at h ⊢
        cases idle with
        | none =>
          cases h
          rw [none]
          rfl
        | _ => cases h
      | present step child here eq =>
        rw [eq] at h ⊢
        rw [choose_putChild hsingle here, valuesOf_gather_singleton]
        exact ih hrest h
      | missing step none absent takes reaches eq =>
        rw [eq] at h
        replace h : (assign limits new rest .null).outcome = .ok n := h
        rw [eq, Edited.any_of_ok h]
        -- The child is kept if anything was assigned in it, and only then the segment leads to it.
        cases n with
        | zero =>
          rw [if_neg (by simp), none]
          rfl
        | succ n =>
          rw [if_pos (by simp), reaches, valuesOf_gather_singleton]
          exact ih hrest h
    · rw [select_cons Segment.noConfusion]
      obtain ⟨-, each, rfl, value⟩ := assign_wildcard_of_ok h
      rw [value, Segment.choose, Value.childNodes_withChildren_map, ← v.childNodes_map_snd]
      refine valuesOf_gather_replicate (f := fun child => (assign limits new rest child).value)
        (n := fun child => (assign limits new rest child).count) fun node mem => ?_
      refine ih hrest (each node.2 ?_)
      rw [← v.childNodes_map_snd]
      exact List.mem_map_of_mem mem

/-- After an assignment that succeeds, another comes to what it would have come to before. -/
theorem assign_assign {segments : List Segment} (hsegments : ∀ s ∈ segments, s.unconditional)
    {limits : Limits} {old v : Value} {n : Nat} (h : (assign limits old segments v).outcome = .ok n)
    (new : Value) :
    assign limits new segments (assign limits old segments v).value
      = assign limits new segments v := by
  induction segments generalizing v n with
  | nil => rfl
  | cons segment rest ih =>
    obtain ⟨hsingle | rfl, hrest⟩ := List.forall_mem_cons.1 hsegments
    · cases Segment.entry hsingle limits rest v with
      | closed outcome idle none eq => rw [eq]
      | present step child here eq =>
        have takes := Value.takes_of_child? (child?_of_choose hsingle here)
        rw [eq] at h ⊢
        rw [assign_of_choose hsingle (choose_putChild hsingle here _), ih hrest h, eq,
          Value.putChild_putChild takes]
      | missing step none absent takes reaches eq =>
        rw [eq] at h ⊢
        cases hany : (assign limits old rest .null).any with
        | false => rfl
        | true =>
          -- The child made by the first assignment is there for the second, which replaces it.
          rw [if_pos rfl, assign_of_choose hsingle (reaches _), ih hrest h, eq,
            assign_any_eq limits new old, hany, if_pos rfl, Value.putChild_putChild takes]
    · obtain ⟨hv, each, -, value⟩ := assign_wildcard_of_ok h
      have hsame (child : Value) (mem : child ∈ v.children) :
          assign limits new rest (assign limits old rest child).value
            = assign limits new rest child := ih hrest (each child mem)
      have hok (child : Value) (mem : child ∈ v.children) :
          (assign limits new rest child).outcome = .ok (assign limits new rest child).count :=
        Edited.ok_count ((assign_outcome_eq limits new old rest child).trans (each child mem))
      rw [value, assign_wildcard hv, assign_wildcard (hv.withChildren _), editChildren,
        editChildren, Value.children_withChildren (List.length_map _), editEach_map hok hsame,
        Value.withChildren_withChildren (List.length_map _)]

/-! ### Whole calls -/

/-- A call to assign that succeeds is an assignment along the segments that reports nodes. -/
theorem Path.exists_assign_of_set {path : Path} {limits : Limits} {root new left : Value}
    (h : path.set limits root new = ⟨left, .ok ()⟩) :
    path.segments ≠ [] ∧ root ≠ .null ∧
      left = (assign limits new path.segments root).value ∧
      ∃ n, (assign limits new path.segments root).outcome = .ok (n + 1) := by
  obtain ⟨e, -, eq⟩ | ⟨hpath, hroot, eq⟩ := path.set_cases limits root
  · rw [eq] at h
    cases h
  · rw [eq] at h
    have hany := Edited.finish_outcome_eq_ok_iff.1 (congrArg Edited.outcome h)
    refine ⟨hpath, hroot, ?_, ?_⟩
    · rw [← Edited.finish_value _ path, h]
    · rw [Edited.any] at hany
      split at hany
      · next n hn =>
        obtain ⟨m, rfl⟩ := Nat.exists_eq_add_one.2 (of_decide_eq_true hany)
        exact ⟨m, hn⟩
      · cases hany

/-- A path of members, items and wildcards is a lens. After a call to assign that succeeds it
leads to the assigned value and to nothing else, and another call comes to what it would have come
to before. Without a wildcard, assigning what is there changes nothing. -/
theorem Path.set_laws {path : Path} (hpath : path.segments ≠ [])
    (hsegments : ∀ s ∈ path.segments, s.unconditional) {root : Value} (hroot : root.WellFormed)
    (limits : Limits) :
    (∀ new left, path.set limits root new = ⟨left, .ok ()⟩ →
        (∃ values, path.getAll limits left = .ok values ∧ values ≠ [] ∧ ∀ v ∈ values, v = new) ∧
          path.get limits left = .ok new ∧
          ∀ other, (path.set limits left other).outcome = .ok () ∧
            path.set limits left other = path.set limits root other) ∧
      ((∀ s ∈ path.segments, s.single) → ∀ v, path.get limits root = .ok v →
        path.set limits root v = ⟨root, .ok ()⟩) := by
  constructor
  · intro new left h
    obtain ⟨-, hnull, rfl, n, hn⟩ := Path.exists_assign_of_set h
    have hvalues := valuesOf_select_assign hsegments hn (limits.maxDepth + 1)
    obtain ⟨nodes, hselect, hnodes⟩ := Option.map_eq_some_iff.1 hvalues
    refine ⟨⟨_, Path.getAll_eq_ok_iff.2 ⟨nodes, hselect, rfl⟩, ?_, ?_⟩, ?_, ?_⟩
    · rw [hnodes]
      exact List.cons_ne_nil _ _
    · rw [hnodes]
      exact fun v mem => List.eq_of_mem_replicate mem
    · rw [Path.get_eq (searchFirst_eq_of_select hselect), hnodes]
      rfl
    · intro other
      -- The path leads somewhere by now, so that the root is no null.
      have hleft : (assign limits new path.segments root).value ≠ .null := by
        intro heq
        rw [heq, select_null hpath hsegments] at hvalues
        cases hvalues
      have hsame : path.set limits (assign limits new path.segments root).value other
          = path.set limits root other := by
        rw [Path.set_eq hpath hleft, assign_assign hsegments hn, Path.set_eq hpath hnull]
      refine ⟨?_, hsame⟩
      rw [hsame, Path.set_eq hpath hnull, Edited.finish_outcome_eq_ok_iff,
        assign_any_eq _ other new, Edited.any_of_ok hn]
      exact decide_eq_true n.succ_pos
  · intro hsingle v hget
    obtain ⟨location, hleads⟩ := Path.exists_leads_of_get hsingle hget
    have hassign := (follows_assign limits v []).append hleads []
    simp only [List.append_nil] at hassign
    rw [Path.set_eq hpath (hleads.ne_null fun h => absurd h hpath), hassign, assign_nil,
      hleads.putAt_self hroot]
    rfl

/-- The items of an array that are assigned in an object and in a null, where arrays are made for
them, and the last item of an array that is assigned what it is. -/
theorem Path.set_laws_items :
    ∃ path back : Path, ∃ root left other : Value,
      path.set ⟨0, 2, 16⟩ root (.bool true) = ⟨left, .ok ()⟩ ∧
      path.get ⟨0, 2, 16⟩ left = .ok (.bool true) ∧
      path.set ⟨0, 2, 16⟩ left .null = path.set ⟨0, 2, 16⟩ root .null ∧
      back.get ⟨0, 2, 16⟩ other = .ok (.string "") ∧
      back.set ⟨0, 2, 16⟩ other (.string "") = ⟨other, .ok ()⟩ := by
  have hroot : (Value.array [.object [], .null]).WellFormed := by
    simp [Members.keys]
  have hother : (Value.object [("a", .array [.null, .string ""])]).WellFormed := by
    simp [Members.keys]
  have hpath : ∀ s ∈ [.wildcard, .property "a", .index 1], Segment.unconditional s := by
    simp [Segment.unconditional, Segment.single]
  have hback : ∀ s ∈ [.property "a", .index (-1)], Segment.unconditional s := by
    simp [Segment.unconditional, Segment.single]
  have hlaws := @Path.set_laws ⟨"$[*].a[1]", [.wildcard, .property "a", .index 1]⟩
    (List.cons_ne_nil _ _) hpath _ hroot ⟨0, 2, 16⟩
  have hlawsBack := @Path.set_laws ⟨"$.a[-1]", [.property "a", .index (-1)]⟩
    (List.cons_ne_nil _ _) hback _ hother ⟨0, 2, 16⟩
  obtain ⟨-, hget, hset⟩ := hlaws.1 (.bool true) _ rfl
  refine ⟨_, _, _, _, _, rfl, hget, (hset .null).2, rfl, hlawsBack.2 ?_ _ rfl⟩
  simp [Segment.single]

end JsonDoc
