import JsonDoc.Proofs.Remove.Agreement
import JsonDoc.Proofs.Remove.Steady

/-!
# `JsonDoc.Proofs.Remove.Selected`: deleting what reading selects

A call to delete along a path leaves the document without the locations that reading along the
same path has selected, if the removal is steady. It always is if no descent is in the path, or
one in front of the last segment. With more segments behind a descent it need not be: a document
can lose more than was selected, and it can lose less. What is lost are parts of it in any case;
nothing else is changed.
-/

set_option autoImplicit false

namespace JsonDoc

/-- Segments in front of the first descent do not matter. -/
theorem alwaysSteady_append {front segments : List Segment} (hfront : ∀ s ∈ front, s ≠ .descent)
    (h : alwaysSteady segments = true) : alwaysSteady (front ++ segments) = true := by
  induction front with
  | nil => exact h
  | cons segment front ih =>
    obtain ⟨hsegment, hfront⟩ := List.forall_mem_cons.1 hfront
    rw [List.cons_append, alwaysSteady_cons hsegment]
    exact ih hfront

/-- One segment behind a descent is always steady. -/
theorem alwaysSteady_descent {segment : Segment} (h : segment ≠ .descent) :
    alwaysSteady [.descent, segment] = true := by
  cases segment with
  | descent => exact absurd rfl h
  | index i => simp [alwaysSteady, steadyBehind, Segment.steadyBefore]
  | _ => rfl

/-- Segments end as the last ones of them do. -/
theorem LeadsBelow.of_append {front rest : List Segment} (h : LeadsBelow (front ++ rest))
    (hrest : rest ≠ []) : LeadsBelow rest := by
  induction front with
  | nil => exact h
  | cons segment front ih =>
    obtain ⟨next, tail, heq⟩ :=
      List.exists_cons_of_ne_nil (List.append_ne_nil_of_right_ne_nil front hrest)
    rw [List.cons_append, heq] at h
    rw [heq] at ih
    exact ih h

section
variable {text : String} {path : Path} {root : Value} {limits : Limits} {nodes : List Node}

/-- A call that gives nodes comes from a walk that does not give up. -/
theorem Path.select_of_nodes (h : path.nodes limits root = .ok nodes) :
    select path.segments (limits.maxDepth + 1) root = some nodes := by
  rw [Path.nodes] at h
  split at h
  · next hselect =>
    cases h
    exact hselect
  · cases h

/-- A steady call to delete that succeeds takes out the nodes that the path leads to beforehand. -/
theorem Path.value_delete_of_steady (below : LeadsBelow path.segments) (hroot : root.WellFormed)
    (hnodes : path.nodes limits root = .ok nodes)
    (hok : (path.delete limits root).outcome = .ok ()) (steady : Steady path.segments root) :
    (path.delete limits root).value
      = root.without fun location => decide (location ∈ nodes.map Node.location) := by
  obtain ⟨count, hcount⟩ := Path.exists_ok_remove below.ne_nil hok
  rw [Path.delete_eq below.ne_nil, Edited.finish_value,
    ← addressed_eq_of_select (Path.select_of_nodes hnodes)]
  exact (removal_of_ok below hroot hcount).left_eq_without hroot steady

/-- Along a path with no descent, or with one in front of the last segment, deleting takes out of
the document just the locations that reading along the path selects in it. -/
theorem Path.delete_eq_without (hpath : Path.compile text = .ok path) (hroot : root.WellFormed)
    (hshape : (∀ s ∈ path.segments, s ≠ .descent) ∨
      ∃ front last, path.segments = front ++ [.descent, last] ∧ ∀ s ∈ front, s ≠ .descent)
    (hnodes : path.nodes limits root = .ok nodes)
    (hok : (path.delete limits root).outcome = .ok ()) :
    (path.delete limits root).value
      = root.without fun location => decide (location ∈ nodes.map Node.location) := by
  have below := Path.leadsBelow_of_compile hpath (Path.isRoot_eq_false_of_delete hok)
  refine Path.value_delete_of_steady below hroot hnodes hok ?_
  refine steady_of_alwaysSteady below ?_ hroot
  obtain hflat | ⟨front, last, hsegments, hfront⟩ := hshape
  · have h : alwaysSteady (path.segments ++ []) = true := alwaysSteady_append hflat rfl
    rwa [List.append_nil] at h
  · rw [hsegments] at below ⊢
    exact alwaysSteady_append hfront (alwaysSteady_descent (below.of_append nofun))

end

/-- Of the first row its first item goes as well, and the second row moves to the front. -/
theorem Path.delete_eq_without_rows :
    ∃ path : Path, ∃ root : Value, ∃ nodes : List Node,
      Path.compile "$.rows..[0]" = .ok path ∧ path.nodes ⟨3, 0, 0⟩ root = .ok nodes ∧
        nodes.map Node.location
          = [[.key "rows", .item 0], [.key "rows", .item 0, .item 0],
              [.key "rows", .item 1, .item 0]] ∧
        (path.delete ⟨3, 0, 0⟩ root).value
          = root.without fun location => decide (location ∈ nodes.map Node.location) := by
  let path : Path := ⟨"$.rows..[0]", [.property "rows", .descent, .index 0]⟩
  let root : Value := .object [("rows", .array [.array [.null], .array [.null, .bool true]])]
  have hpath : Path.compile "$.rows..[0]" = .ok path := by decide +kernel
  have hroot : root.WellFormed := by simp [root, Members.keys]
  have hfront : ∀ s ∈ [Segment.property "rows"], s ≠ .descent := by simp
  exact ⟨path, root, _, hpath, rfl, rfl,
    Path.delete_eq_without hpath hroot (.inr ⟨[.property "rows"], .index 0, rfl, hfront⟩) rfl rfl⟩

section
variable {text : String} {path : Path} {root : Value} {limits : Limits} {nodes : List Node}

/-- Deleting takes parts out of the document, and nothing else. If the removal is steady, these are
just the locations that reading along the path selects in the document, and there are paths along
which every removal is steady. -/
theorem Path.delete_eq_without_of_steady (hpath : Path.compile text = .ok path)
    (hroot : root.WellFormed) (hnodes : path.nodes limits root = .ok nodes)
    (hok : (path.delete limits root).outcome = .ok ()) :
    root.Pruned true (path.delete limits root).value ∧
      (alwaysSteady path.segments = true → Steady path.segments root) ∧
      (Steady path.segments root → (path.delete limits root).value
        = root.without fun location => decide (location ∈ nodes.map Node.location)) := by
  have below := Path.leadsBelow_of_compile hpath (Path.isRoot_eq_false_of_delete hok)
  refine ⟨?_, fun h => steady_of_alwaysSteady below h hroot,
    Path.value_delete_of_steady below hroot hnodes hok⟩
  obtain ⟨count, hcount⟩ := Path.exists_ok_remove below.ne_nil hok
  rw [Path.delete_eq below.ne_nil, Edited.finish_value]
  exact (removal_of_ok below hroot hcount).pruned hroot nofun

end

/-- Two names behind a descent, where the second visit comes to what the first has left. -/
theorem Path.delete_eq_without_of_steady_names :
    ∃ path : Path, ∃ root : Value, ∃ nodes : List Node,
      Path.compile "$..a.b" = .ok path ∧ path.nodes ⟨3, 0, 0⟩ root = .ok nodes ∧
        nodes.map Node.location = [[.key "a", .key "b"], [.key "a", .key "a", .key "b"]] ∧
        (path.delete ⟨3, 0, 0⟩ root).value
          = root.without fun location => decide (location ∈ nodes.map Node.location) := by
  let path : Path := ⟨"$..a.b", [.descent, .property "a", .property "b"]⟩
  let root : Value := .object [("a", .object [("b", .null), ("a", .object [("b", .null)])])]
  have hpath : Path.compile "$..a.b" = .ok path := by decide +kernel
  have hroot : root.WellFormed := by simp [root, Members.keys]
  obtain ⟨-, always, exact_of_steady⟩ := Path.delete_eq_without_of_steady hpath hroot
    (show path.nodes ⟨3, 0, 0⟩ root = .ok _ from rfl) rfl
  exact ⟨path, root, _, hpath, rfl, rfl, exact_of_steady (always rfl)⟩

/-- The second visit takes its index from a row that the first has moved to the front, and one
item is lost that was not selected. A visit may also pass over a candidate for a field that an
earlier one has taken out of it, and one member stays that was selected. -/
theorem Path.exists_delete_ne_without :
    (∃ path : Path, ∃ root : Value, ∃ nodes : List Node,
      Path.compile "$..[0][0]" = .ok path ∧ root.WellFormed ∧
        path.nodes ⟨3, 0, 0⟩ root = .ok nodes ∧ (path.delete ⟨3, 0, 0⟩ root).outcome = .ok () ∧
        (path.delete ⟨3, 0, 0⟩ root).value
          ≠ root.without fun location => decide (location ∈ nodes.map Node.location)) ∧
    ∃ path : Path, ∃ root : Value, ∃ nodes : List Node,
      Path.compile "$..[?(@.b)].a.b" = .ok path ∧ root.WellFormed ∧
        path.nodes ⟨4, 0, 0⟩ root = .ok nodes ∧ (path.delete ⟨4, 0, 0⟩ root).outcome = .ok () ∧
        (path.delete ⟨4, 0, 0⟩ root).value
          ≠ root.without fun location => decide (location ∈ nodes.map Node.location) := by
  constructor
  · -- The item in front is taken out at the root of the descent, and the next one moves to its
    -- index.
    let path : Path := ⟨"$..[0][0]", [.descent, .index 0, .index 0]⟩
    let root : Value := .array [.array [.array [.null], .array [.bool true]]]
    refine ⟨path, root, _, by decide +kernel, ?_, rfl, rfl, ?_⟩
    · simp [root]
    · show Value.array [.array [.array []]] ≠ .array [.array [.array [.bool true]]]
      simp
  · -- The field that the condition asks for is taken out before the descent comes to its
    -- candidate.
    let path : Path := ⟨"$..[?(@.b)].a.b",
      [.descent, .filter (.present ["b"]), .property "a", .property "b"]⟩
    let root : Value := .object [("c", .object [("b", .null),
      ("a", .object [("b", .null), ("a", .object [("b", .null)])])])]
    refine ⟨path, root, _, by decide +kernel, ?_, rfl, rfl, ?_⟩
    · simp [root, Members.keys]
    · show Value.object [("c", .object [("b", .null),
            ("a", .object [("a", .object [("b", .null)])])])]
        ≠ .object [("c", .object [("b", .null), ("a", .object [("a", .object [])])])]
      simp

end JsonDoc
