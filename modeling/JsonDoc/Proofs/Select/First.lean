import JsonDoc.Proofs.Select.Walk

/-!
# `JsonDoc.Proofs.Select.First`: the search for one node and the walk for all

The search for one node stops at the first one, and so may come to a node before the place where
the walk for all nodes would give up. Where both come to something they agree, and a greater
limit changes neither:

* `select_mono` and `searchFirst_mono`: with more budget, a walk that did not give up and a
  search that did not give up come to the same.
* `searchFirst_eq_of_select`: the search comes to the first node of the walk, if the walk does
  not give up.
* `Path.get_of_getAll`: what follows for `Path.get` and `Path.getAll` under two limits.
-/

set_option autoImplicit false

namespace JsonDoc

/-! ### More budget for the walk -/

/-- A walk that gives up less often finds the same below the children. -/
theorem gather_mono {walk walk' : Value → Option (List Node)}
    (mono : ∀ {v nodes}, walk v = some nodes → walk' v = some nodes)
    {children : List (Step × Value)} {nodes : List Node} (h : gather walk children = some nodes) :
    gather walk' children = some nodes := by
  induction children generalizing nodes with
  | nil => exact h
  | cons child children ih =>
    rw [gather_cons, Option.bind_eq_some_iff] at h
    obtain ⟨here, hhere, h⟩ := h
    obtain ⟨below, hbelow, rfl⟩ := Option.map_eq_some_iff.1 h
    rw [gather_cons, mono hhere, Option.bind_some, ih hbelow]
    rfl

/-- A descent finds the same with a larger budget. The walk below it has to do so as well. -/
theorem descend_mono {walk : Nat → Value → Option (List Node)}
    (mono : ∀ {b b' v nodes}, walk b v = some nodes → b ≤ b' → walk b' v = some nodes)
    {budget budget' : Nat} {v : Value} {nodes : List Node}
    (h : descend walk budget v = some nodes) (le : budget ≤ budget') :
    descend walk budget' v = some nodes := by
  induction budget generalizing budget' v nodes with
  | zero => cases h
  | succ budget ih =>
    obtain ⟨budget', rfl⟩ : ∃ b, budget' = b + 1 := ⟨budget' - 1, by omega⟩
    simp only [descend, Option.bind_eq_bind, Option.bind_eq_some_iff] at h ⊢
    obtain ⟨here, hhere, below, hbelow, hnodes⟩ := h
    refine ⟨here, mono hhere le, below, ?_, hnodes⟩
    exact gather_mono (fun hchild => ih hchild (Nat.le_of_succ_le_succ le)) hbelow

/-- A walk that does not give up finds the same nodes with more budget. -/
theorem select_mono {segments : List Segment} {budget budget' : Nat} {v : Value}
    {nodes : List Node} (h : select segments budget v = some nodes) (le : budget ≤ budget') :
    select segments budget' v = some nodes := by
  induction segments generalizing budget budget' v nodes with
  | nil => exact h
  | cons segment segments ih =>
    by_cases hdescent : segment = .descent
    · subst hdescent
      exact @descend_mono (select segments) ih _ _ _ _ h le
    · rw [select_cons hdescent] at h ⊢
      exact gather_mono (fun hchild => ih hchild le) h

/-! ### More budget for the search -/

/-- A segment that is not a descent searches the children that it chooses. -/
theorem searchFirst_cons {segment : Segment} (h : segment ≠ .descent) (segments : List Segment)
    (budget : Nat) (v : Value) :
    searchFirst (segment :: segments) budget v
      = searchEach (searchFirst segments budget) (segment.choose v) := by
  cases segment with
  | descent => exact absurd rfl h
  | _ => rfl

/-- A search that gives up less often comes to the same in the children. -/
theorem searchEach_mono {walk walk' : Value → Search}
    (mono : ∀ {v}, walk v ≠ .gaveUp → walk' v = walk v) {children : List (Step × Value)}
    (h : searchEach walk children ≠ .gaveUp) :
    searchEach walk' children = searchEach walk children := by
  induction children with
  | nil => rfl
  | cons child children ih =>
    obtain ⟨step, child⟩ := child
    rw [searchEach] at h ⊢
    -- A node here ends the search; with none it goes on, and only then do the others matter.
    cases hwalk : walk child with
    | found node =>
      have hsame : walk' child = walk child := mono (by rw [hwalk]; exact Search.noConfusion)
      rw [searchEach, hsame, hwalk]
    | absent =>
      have hsame : walk' child = walk child := mono (by rw [hwalk]; exact Search.noConfusion)
      rw [hwalk] at h
      rw [searchEach, hsame, hwalk]
      exact ih h
    | gaveUp =>
      rw [hwalk] at h
      exact absurd rfl h

/-- A search through a descent comes to the same with a larger budget. -/
theorem searchBelow_mono {walk : Nat → Value → Search}
    (mono : ∀ {b b' v}, walk b v ≠ .gaveUp → b ≤ b' → walk b' v = walk b v)
    {budget budget' : Nat} {v : Value} (h : searchBelow walk budget v ≠ .gaveUp)
    (le : budget ≤ budget') : searchBelow walk budget' v = searchBelow walk budget v := by
  induction budget generalizing budget' v with
  | zero => exact absurd rfl h
  | succ budget ih =>
    obtain ⟨budget', rfl⟩ : ∃ b, budget' = b + 1 := ⟨budget' - 1, by omega⟩
    rw [searchBelow] at h ⊢
    cases hwalk : walk (budget + 1) v with
    -- Whether the search ends at this node does not depend on the budget.
    | found node =>
      have hsame := mono (v := v) (by rw [hwalk]; exact Search.noConfusion) le
      rw [searchBelow, hsame, hwalk]
    | absent =>
      have hsame := mono (v := v) (by rw [hwalk]; exact Search.noConfusion) le
      rw [hwalk] at h
      rw [searchBelow, hsame, hwalk]
      exact searchEach_mono (fun hchild => ih hchild (Nat.le_of_succ_le_succ le)) h
    | gaveUp =>
      rw [hwalk] at h
      exact absurd rfl h

/-- A search that does not give up comes to the same with more budget. -/
theorem searchFirst_mono {segments : List Segment} {budget budget' : Nat} {v : Value}
    (h : searchFirst segments budget v ≠ .gaveUp) (le : budget ≤ budget') :
    searchFirst segments budget' v = searchFirst segments budget v := by
  induction segments generalizing budget budget' v with
  | nil => rfl
  | cons segment segments ih =>
    by_cases hdescent : segment = .descent
    · subst hdescent
      exact @searchBelow_mono (searchFirst segments) ih _ _ _ h le
    · rw [searchFirst_cons hdescent] at h ⊢
      rw [searchFirst_cons hdescent]
      exact searchEach_mono (fun hchild => ih hchild le) h

/-! ### The search and the walk -/

/-- What a search comes to among these nodes. -/
def Search.firstOf : List Node → Search
  | [] => .absent
  | node :: _ => .found node

/-- Where the walk finds all nodes below some children, the search finds the first one. -/
theorem searchEach_eq_of_gather {walk : Value → Option (List Node)} {search : Value → Search}
    (agree : ∀ {v nodes}, walk v = some nodes → search v = .firstOf nodes)
    {children : List (Step × Value)} {nodes : List Node}
    (h : gather walk children = some nodes) : searchEach search children = .firstOf nodes := by
  induction children generalizing nodes with
  | nil =>
    rw [gather_nil] at h
    cases h
    rfl
  | cons child children ih =>
    obtain ⟨step, child⟩ := child
    rw [gather_cons, Option.bind_eq_some_iff] at h
    obtain ⟨here, hhere, h⟩ := h
    obtain ⟨below, hbelow, rfl⟩ := Option.map_eq_some_iff.1 h
    rw [searchEach, agree hhere]
    -- The first node of the walk is here, or, with none here, below a later child.
    cases here with
    | nil => exact ih hbelow
    | cons node here => rfl

/-- Where a descent finds all nodes, the search through it finds the first one. -/
theorem searchBelow_eq_of_descend {walk : Nat → Value → Option (List Node)}
    {search : Nat → Value → Search}
    (agree : ∀ {b v nodes}, walk b v = some nodes → search b v = .firstOf nodes)
    {budget : Nat} {v : Value} {nodes : List Node} (h : descend walk budget v = some nodes) :
    searchBelow search budget v = .firstOf nodes := by
  -- As for the walk, the induction is on the budget: children are searched with one less.
  induction budget generalizing v nodes with
  | zero => cases h
  | succ budget ih =>
    simp only [descend, Option.bind_eq_bind, Option.bind_eq_some_iff, Option.pure_def,
      Option.some.injEq] at h
    obtain ⟨here, hhere, below, hbelow, rfl⟩ := h
    rw [searchBelow, agree hhere]
    cases here with
    | nil => exact searchEach_eq_of_gather ih hbelow
    | cons node here => rfl

/-- The search comes to the first node of a walk that does not give up. -/
theorem searchFirst_eq_of_select {segments : List Segment} {budget : Nat} {v : Value}
    {nodes : List Node} (h : select segments budget v = some nodes) :
    searchFirst segments budget v = .firstOf nodes := by
  induction segments generalizing budget v nodes with
  | nil =>
    cases h
    rfl
  | cons segment segments ih =>
    by_cases hdescent : segment = .descent
    · subst hdescent
      exact searchBelow_eq_of_descend ih h
    · rw [select_cons hdescent] at h
      rw [searchFirst_cons hdescent]
      exact searchEach_eq_of_gather ih h

/-! ### Paths -/

/-- A call gives values if the walk does not give up, and then those of the nodes found. -/
theorem Path.getAll_eq_ok_iff {path : Path} {limits : Limits} {root : Value}
    {values : List Value} :
    path.getAll limits root = .ok values ↔
      ∃ nodes, select path.segments (limits.maxDepth + 1) root = some nodes ∧
        values = nodes.map Node.value := by
  rw [Path.getAll, Path.nodes]
  cases select path.segments (limits.maxDepth + 1) root with
  | none => simp [Except.map]
  | some nodes => simp [Except.map, eq_comm]

/-- What a search comes to is what `get` answers. -/
theorem Path.get_eq {path : Path} {limits : Limits} {root : Value} {nodes : List Node}
    (h : searchFirst path.segments (limits.maxDepth + 1) root = .firstOf nodes) :
    path.get limits root = match (nodes.map Node.value).head? with
      | some v => .ok v
      | none => .error (.notFound path.text) := by
  rw [Path.get, h]
  cases nodes with
  | nil => rfl
  | cons node nodes => rfl

/-- A call that gives a value has found a node with that value. -/
theorem Path.exists_found_of_get {path : Path} {limits : Limits} {root v : Value}
    (h : path.get limits root = .ok v) :
    ∃ node, searchFirst path.segments (limits.maxDepth + 1) root = .found node ∧
      v = node.value := by
  rw [Path.get] at h
  cases hsearch : searchFirst path.segments (limits.maxDepth + 1) root with
  | found node =>
    rw [hsearch] at h
    cases h
    exact ⟨node, rfl, rfl⟩
  | absent =>
    rw [hsearch] at h
    cases h
  | gaveUp =>
    rw [hsearch] at h
    cases h

/-- `get` and `getAll` of a path, under a limit and a greater one. What `getAll` gives it gives
under the greater limit too, and `get` is its first value or the failure to find one. What `get`
gives is the first value of `getAll` under every greater limit under which that does not fail.
There are two ways for `get` to fail. -/
theorem Path.get_of_getAll {limits limits' : Limits} (le : limits.maxDepth ≤ limits'.maxDepth)
    (path : Path) (root : Value) :
    (∀ values, path.getAll limits root = .ok values →
        path.getAll limits' root = .ok values ∧
          path.get limits root = match values.head? with
            | some v => .ok v
            | none => .error (.notFound path.text)) ∧
      (∀ v values, path.get limits root = .ok v → path.getAll limits' root = .ok values →
        values.head? = some v) ∧
      ∀ e, path.get limits root = .error e →
        e = .notFound path.text ∨ e = .tooDeep limits.maxDepth := by
  have lt : limits.maxDepth + 1 ≤ limits'.maxDepth + 1 := Nat.succ_le_succ le
  refine ⟨?_, ?_, ?_⟩
  · intro values h
    obtain ⟨nodes, hselect, rfl⟩ := Path.getAll_eq_ok_iff.1 h
    refine ⟨Path.getAll_eq_ok_iff.2 ⟨nodes, select_mono hselect lt, rfl⟩, ?_⟩
    exact Path.get_eq (searchFirst_eq_of_select hselect)
  · intro v values hget hgetAll
    obtain ⟨node, hsearch, rfl⟩ := Path.exists_found_of_get hget
    obtain ⟨nodes, hselect, rfl⟩ := Path.getAll_eq_ok_iff.1 hgetAll
    -- The search comes to the same under the greater limit, where the walk finds all nodes.
    have hsame : searchFirst path.segments (limits'.maxDepth + 1) root
        = searchFirst path.segments (limits.maxDepth + 1) root :=
      searchFirst_mono (by rw [hsearch]; exact Search.noConfusion) lt
    rw [hsearch, searchFirst_eq_of_select hselect] at hsame
    cases nodes with
    | nil => cases hsame
    | cons first nodes =>
      cases hsame
      rfl
  · intro e h
    rw [Path.get] at h
    split at h
    · cases h
    · cases h
      exact .inl rfl
    · cases h
      exact .inr rfl

/-- A descent to `a` stops at the first `a`, before the limit of no steps at all is passed. -/
theorem Path.get_of_getAll_descent :
    ∃ path : Path, ∃ root : Value,
      path.get ⟨0, 0, 0⟩ root = .ok .null ∧
      path.getAll ⟨0, 0, 0⟩ root = .error (.tooDeep 0) ∧
      path.getAll ⟨1, 0, 0⟩ root = .ok [.null] ∧
      ∀ values, path.getAll ⟨1, 0, 0⟩ root = .ok values → values.head? = some .null := by
  have le : (⟨0, 0, 0⟩ : Limits).maxDepth ≤ (⟨1, 0, 0⟩ : Limits).maxDepth := by decide
  refine ⟨⟨"$..a", [.descent, .property "a"]⟩, .object [("a", .null)], rfl, rfl, rfl, ?_⟩
  intro values h
  exact (Path.get_of_getAll le _ _).2.1 _ values rfl h

end JsonDoc
