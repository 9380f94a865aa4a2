import JsonDoc.Path.Parser
import JsonDoc.Proofs.Edit.Child
import JsonDoc.Proofs.Select.First

/-!
# `JsonDoc.Proofs.Select.Order`: where the nodes of a walk lie

The walk finds one node for each chain (`finds_of_select`), in the order of the chains. The chains
order choices; here their nodes are ordered, by where they lie in the document.

* `Value.Precedes` is the order of the locations of a document: a node before what is below it, and
  all that is below a child before all that is below a later child.
* `Chain.choices_unique`: with one descent at most, a location is reached by one chain only. How far
  the descent goes down can be read off the length of the location, and each choice after that off a
  step of it.
* `Chain.precedes_of_before`: without a descent, the order of the chains is the order of the
  document.

`Path.getAll_in_order` puts them together. With two descents a node can be found more than once.
-/

set_option autoImplicit false

namespace JsonDoc

/-! ### The order of a document -/

namespace Value

/-- The first of two locations in the order in which a document is read. -/
inductive Precedes : Value → Location → Location → Prop where
  /-- A node comes before what is below it. -/
  | above {v : Value} {step : Step} {rest : Location} : Precedes v [] (step :: rest)
  /-- What is at or below a child comes before what is at or below a later child. -/
  | aside {v child child' : Value} {place place' : Nat} {step step' : Step}
      {rest rest' : Location} : v.childNodes[place]? = some (step, child) →
      v.childNodes[place']? = some (step', child') → place < place' →
      Precedes v (step :: rest) (step' :: rest')
  /-- Below the same child it is as in the child. -/
  | within {v child : Value} {step : Step} {rest rest' : Location} : v.child? step = some child →
      Precedes child rest rest' → Precedes v (step :: rest) (step :: rest')

/-- A step leads to one place. -/
theorem StepsDiffer.place_unique {v child child' : Value} {place place' : Nat} {step : Step}
    (differ : v.StepsDiffer) (h : v.childNodes[place]? = some (step, child))
    (h' : v.childNodes[place']? = some (step, child')) : place = place' := by
  have hstep : (v.childNodes.map Prod.fst)[place]? = some step := by
    rw [List.getElem?_map, h, Option.map_some]
  have hstep' : (v.childNodes.map Prod.fst)[place']? = some step := by
    rw [List.getElem?_map, h', Option.map_some]
  obtain ⟨lt, -⟩ := List.getElem?_eq_some_iff.1 hstep
  exact (List.getElem?_inj lt differ).1 (hstep.trans hstep'.symm)

/-- A child is found by the step beside it. -/
theorem WellFormed.child?_of_getElem? {v child : Value} {place : Nat} {step : Step}
    (hv : v.WellFormed) (h : v.childNodes[place]? = some (step, child)) :
    v.child? step = some child ∧ child.WellFormed := by
  have hchild := child?_of_mem_childNodes hv.stepsDiffer (List.mem_of_getElem? h)
  exact ⟨hchild, hv.of_child? hchild⟩

end Value

/-! ### The node at the end of a chain -/

section
variable {segments : List Segment} {v : Value} {choices choices' : List Choice} {node node' : Node}

/-- A chain ends at a node of the document. -/
theorem Chain.at?_location (h : Chain segments v choices node) (hv : v.WellFormed) :
    v.at? node.location = some node.value := by
  have hunder {v child : Value} {place : Nat} {step : Step} {node : Node} (hv : v.WellFormed)
      (hat : v.childNodes[place]? = some (step, child))
      (ih : child.WellFormed → child.at? node.location = some node.value) :
      v.at? (node.under step).location = some node.value := by
    obtain ⟨hchild, hv⟩ := hv.child?_of_getElem? hat
    rw [Node.under, Value.at?_cons_of_child? hchild]
    exact ih hv
  induction h with
  | done => rfl
  | pick hselects _ ih => exact hunder hv hselects.1 ih
  | stop _ ih => exact ih hv
  | down hat _ ih => exact hunder hv hat ih

/-- Every choice is a step of the location, but for those to stop. -/
theorem Chain.length_location (h : Chain segments v choices node) :
    node.location.length + segments.count .descent = descents choices + segments.length := by
  induction h with
  | done => rfl
  | @pick segment rest _ _ _ _ _ _ hselects _ ih =>
    have hsegment : segment ≠ .descent := by
      rintro rfl
      exact hselects.2
    rw [List.count_cons_of_ne hsegment]
    simp only [Node.under, List.length_cons, descents]
    omega
  | stop _ ih =>
    simp only [List.count_cons_self, List.length_cons, descents]
    omega
  | down _ _ ih =>
    simp only [Node.under, List.length_cons, descents] at ih ⊢
    omega

/-- Without a descent among the segments a chain takes no step in one. -/
theorem Chain.descents_eq_zero (h : Chain segments v choices node) (hflat : .descent ∉ segments) :
    descents choices = 0 := by
  induction h with
  | done => rfl
  | pick _ _ ih => exact ih fun mem => hflat (List.mem_cons_of_mem _ mem)
  | stop => exact absurd List.mem_cons_self hflat
  | down => exact absurd List.mem_cons_self hflat

/-- A chain that stops at once does not end where one that goes down does, if no other descent
makes up for it. -/
theorem Chain.location_ne {rest : List Segment} {place : Nat}
    (hcount : (.descent :: rest : List Segment).count .descent ≤ 1)
    (h : Chain (.descent :: rest) v (.stop :: choices) node)
    (h' : Chain (.descent :: rest) v (.down place :: choices') node') :
    node.location ≠ node'.location := by
  intro hlocation
  have hlength := h.length_location
  have hlength' := h'.length_location
  have hflat : .descent ∉ rest := by
    rw [List.count_cons_self] at hcount
    exact List.count_eq_zero.1 (by omega)
  cases h with
  | stop h =>
    -- The first chain takes no step in a descent, and the second takes one at least.
    have hzero := h.descents_eq_zero hflat
    rw [hlocation] at hlength
    simp only [descents] at hlength hlength'
    omega

/-- With one descent at most, different chains end at different locations. -/
theorem Chain.choices_unique (h : Chain segments v choices node)
    (h' : Chain segments v choices' node') (hv : v.WellFormed)
    (hcount : segments.count .descent ≤ 1) (hlocation : node.location = node'.location) :
    choices = choices' := by
  induction h generalizing choices' node' with
  | done =>
    cases h'
    rfl
  | pick hselects _ ih =>
    cases h' with
    | pick hselects' h' =>
      -- The same step is the same place, and so the same child.
      obtain ⟨rfl, htail⟩ := List.cons.inj hlocation
      obtain rfl := hv.stepsDiffer.place_unique hselects.1 hselects'.1
      cases hselects.1.symm.trans hselects'.1
      obtain ⟨-, hchild⟩ := hv.child?_of_getElem? hselects.1
      rw [ih h' hchild (Nat.le_trans List.count_le_count_cons hcount) htail]
    | stop => exact absurd hselects.2 id
    | down => exact absurd hselects.2 id
  | stop h ih =>
    cases h' with
    | pick hselects' => exact absurd hselects'.2 id
    | stop h' => rw [ih h' hv (Nat.le_trans List.count_le_count_cons hcount) hlocation]
    | down hat' h' =>
      -- One chain stops where the other goes on, and no later segment can make up for that.
      exact absurd hlocation (Chain.location_ne hcount (.stop h) (.down hat' h'))
  | down hat h ih =>
    cases h' with
    | pick hselects' => exact absurd hselects'.2 id
    | stop h' => exact absurd hlocation.symm (Chain.location_ne hcount (.stop h') (.down hat h))
    | down hat' h' =>
      obtain ⟨rfl, htail⟩ := List.cons.inj hlocation
      obtain rfl := hv.stepsDiffer.place_unique hat hat'
      cases hat.symm.trans hat'
      obtain ⟨-, hchild⟩ := hv.child?_of_getElem? hat
      rw [ih h' hchild hcount htail]

/-- Without a descent, what comes first among the chains comes first in the document. -/
theorem Chain.precedes_of_before (h : Chain segments v choices node)
    (h' : Chain segments v choices' node') (hv : v.WellFormed) (hflat : .descent ∉ segments)
    (hbefore : Before choices choices') : v.Precedes node.location node'.location := by
  induction h generalizing choices' node' with
  | done => cases hbefore
  | pick hselects _ ih =>
    cases h' with
    | pick hselects' h' =>
      cases hbefore with
      | here hprecedes =>
        cases hprecedes with
        | pick lt => exact .aside hselects.1 hselects'.1 lt
      | later hbefore =>
        -- The place of the child is the same, and so is the child.
        cases hselects.1.symm.trans hselects'.1
        obtain ⟨hchild, hv⟩ := hv.child?_of_getElem? hselects.1
        exact .within hchild (ih h' hv (fun mem => hflat (List.mem_cons_of_mem _ mem)) hbefore)
    | stop => exact absurd List.mem_cons_self hflat
    | down => exact absurd List.mem_cons_self hflat
  | stop => exact absurd List.mem_cons_self hflat
  | down => exact absurd List.mem_cons_self hflat

end

/-! ### Whole calls -/

/-- What `getAll` gives are nodes of the document. If the path has one descent at most, they lie at
different locations; if it has none, they come in the order of the document. -/
theorem Path.getAll_in_order {path : Path} {limits : Limits} {root : Value} {values : List Value}
    (hroot : root.WellFormed) (h : path.getAll limits root = .ok values) :
    ∃ nodes, path.nodes limits root = .ok nodes ∧ values = nodes.map Node.value ∧
      (∀ node ∈ nodes, root.at? node.location = some node.value) ∧
      (path.segments.count .descent ≤ 1 → (nodes.map Node.location).Nodup) ∧
      (.descent ∉ path.segments → (nodes.map Node.location).Pairwise root.Precedes) := by
  obtain ⟨nodes, hselect, rfl⟩ := Path.getAll_eq_ok_iff.1 h
  obtain ⟨chains, rfl, hchains⟩ := finds_of_select hselect
  have hchain (chain : List Choice × Node) (mem : chain ∈ chains) :
      Chain path.segments root chain.1 chain.2 := (hchains.mem_iff _ _).1 mem
  refine ⟨_, by rw [Path.nodes, hselect], rfl, ?_, ?_, ?_⟩
  · intro node mem
    obtain ⟨chain, hmem, rfl⟩ := List.mem_map.1 mem
    exact (hchain chain hmem).at?_location hroot
  · intro hcount
    rw [List.Nodup, List.map_map, List.pairwise_map]
    refine hchains.ordered.imp_of_mem ?_
    intro a b hmema hmemb hbefore hlocation
    rw [(hchain a hmema).choices_unique (hchain b hmemb) hroot hcount hlocation] at hbefore
    exact Before.irrefl _ hbefore
  · intro hflat
    rw [List.map_map, List.pairwise_map]
    refine hchains.ordered.imp_of_mem ?_
    intro a b hmema hmemb hbefore
    exact (hchain a hmema).precedes_of_before (hchain b hmemb) hroot hflat hbefore

/-- A descent finds each `b` once, and the one at the root before those below `a`; items are found
one object member after the other. -/
theorem Path.getAll_in_order_rows :
    ∃ path flat : Path, ∃ root : Value, Path.compile "$..b" = .ok path ∧
      Path.compile "$.*[*]" = .ok flat ∧
      root = .object [("a", .array [.object [("b", .null)], .bool true]),
        ("b", .array [.bool false])] ∧
      path.getAll {} root = .ok [.array [.bool false], .null] ∧
      flat.getAll {} root = .ok [.object [("b", .null)], .bool true, .bool false] ∧
      (∃ nodes, path.nodes {} root = .ok nodes ∧ (nodes.map Node.location).Nodup) ∧
      ∃ nodes, flat.nodes {} root = .ok nodes ∧
        (nodes.map Node.location).Pairwise root.Precedes := by
  let path : Path := ⟨"$..b", [.descent, .property "b"]⟩
  let flat : Path := ⟨"$.*[*]", [.wildcard, .wildcard]⟩
  let root : Value := .object [("a", .array [.object [("b", .null)], .bool true]),
    ("b", .array [.bool false])]
  have hpath : Path.compile "$..b" = .ok path := by decide +kernel
  have hflat : Path.compile "$.*[*]" = .ok flat := by decide +kernel
  have hroot : root.WellFormed := by simp [root, Members.keys]
  have hgetAll : path.getAll {} root = .ok [.array [.bool false], .null] := rfl
  have hgetAllFlat : flat.getAll {} root = .ok [.object [("b", .null)], .bool true, .bool false] :=
    rfl
  obtain ⟨nodes, hnodes, -, -, hnodup, -⟩ := Path.getAll_in_order hroot hgetAll
  obtain ⟨nodesFlat, hnodesFlat, -, -, -, hordered⟩ := Path.getAll_in_order hroot hgetAllFlat
  exact ⟨path, flat, root, hpath, hflat, rfl, hgetAll, hgetAllFlat,
    ⟨nodes, hnodes, hnodup (by decide)⟩, nodesFlat, hnodesFlat, hordered (by decide)⟩

/-- The second descent comes to the same node from the member `a` and from the member `c`. -/
example :
    (select [.descent, .wildcard, .descent, .property "b"] 9
        (.object [("a", .object [("c", .object [("b", .null)])])])).map (·.map Node.location)
      = some [[.key "a", .key "c", .key "b"], [.key "a", .key "c", .key "b"]] := rfl

end JsonDoc
