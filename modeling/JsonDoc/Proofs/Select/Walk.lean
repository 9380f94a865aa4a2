import JsonDoc.Path.Parser
import JsonDoc.Proofs.Select.Chain

/-!
# `JsonDoc.Proofs.Select.Walk`: the walk follows every chain

The walk over a document and the chains of a path agree. A walk that does not give up finds the
node at the end of every complete chain, once for each chain and in the order of the chains; it
gives up exactly when some chain, complete or not, takes more steps in its descents than there
is budget for.

* `finds_of_select` and `select_eq_none_iff`: the two halves, for `select`.
* `Path.getAll_follows_chains`: both, for `Path.getAll`, with the error that it reports.

The induction is over the segments, and for a descent over the budget. `gather` is the step from
the children of a node to the node, for both.
-/

set_option autoImplicit false

namespace JsonDoc

/-- The list holds every complete chain from a node once, in their order. -/
structure Lists (segments : List Segment) (v : Value) (chains : List (List Choice × Node)) :
    Prop where
  ordered : chains.Pairwise fun a b => Before a.1 b.1
  mem_iff : ∀ choices node, (choices, node) ∈ chains ↔ Chain segments v choices node

/-- Chains in their order are different chains. -/
theorem Lists.nodup {segments : List Segment} {v : Value} {chains : List (List Choice × Node)}
    (h : Lists segments v chains) : (chains.map Prod.fst).Nodup := by
  rw [List.Nodup, List.pairwise_map]
  refine h.ordered.imp ?_
  intro a b hbefore heq
  rw [heq] at hbefore
  exact Before.irrefl _ hbefore

/-- The nodes are the ends of all complete chains from a node, one for each chain and in the
order of the chains. -/
def Finds (segments : List Segment) (v : Value) (nodes : List Node) : Prop :=
  ∃ chains : List (List Choice × Node), chains.map Prod.snd = nodes ∧ Lists segments v chains

/-! ### One child after the other -/

/-- Below no child nothing is found. -/
theorem gather_nil (walk : Value → Option (List Node)) : gather walk [] = some [] := rfl

/-- The walk over some children goes below the first one and then below the rest, and gives up where
either does. -/
theorem gather_cons (walk : Value → Option (List Node)) (child : Step × Value)
    (children : List (Step × Value)) :
    gather walk (child :: children)
      = (walk child.2).bind fun here => (gather walk children).map fun below =>
          here.map (Node.under child.1) ++ below := by
  simp only [gather, List.mapM_cons]
  cases walk child.2 with
  | none => rfl
  | some here =>
    cases List.mapM (fun child => (walk child.2).map (·.map (Node.under child.1))) children with
    | none => rfl
    | some lists => rfl

/-- The walk over some children gives up when it does so below one of them. -/
theorem gather_eq_none_iff {walk : Value → Option (List Node)} {children : List (Step × Value)} :
    gather walk children = none ↔ ∃ child ∈ children, walk child.2 = none := by
  induction children with
  | nil => simp [gather_nil]
  | cons child children ih =>
    rw [gather_cons, List.exists_mem_cons_iff, ← ih]
    cases walk child.2 with
    | none => simp
    | some here => simp

/-- The chains below one child, from the node above it. -/
def chainsUnder (choice : Choice) (step : Step) (chains : List (List Choice × Node)) :
    List (List Choice × Node) :=
  chains.map fun chain => (choice :: chain.1, chain.2.under step)

/-- The chains from the node above end at the same nodes, seen from there. -/
theorem map_snd_chainsUnder (choice : Choice) (step : Step) (chains : List (List Choice × Node)) :
    (chainsUnder choice step chains).map Prod.snd
      = (chains.map Prod.snd).map (Node.under step) := by
  simp [chainsUnder]

/-- A chain from the node above goes on with one of the chains below the child. -/
theorem mem_chainsUnder {choice : Choice} {step : Step} {chains : List (List Choice × Node)}
    {choices : List Choice} {node : Node} :
    (choices, node) ∈ chainsUnder choice step chains ↔
      ∃ tail last, (tail, last) ∈ chains ∧ choices = choice :: tail ∧ node = last.under step := by
  simp [chainsUnder, eq_comm]

/-- One choice in front of all chains leaves their order. -/
theorem pairwise_chainsUnder {choice : Choice} {step : Step} {chains : List (List Choice × Node)}
    (h : chains.Pairwise fun a b => Before a.1 b.1) :
    (chainsUnder choice step chains).Pairwise fun a b => Before a.1 b.1 := by
  rw [chainsUnder, List.pairwise_map]
  exact h.imp .later

/-- The chains below some children, when the walk below each of them lists its chains. -/
theorem exists_chains_gather {walk : Value → Option (List Node)} {segments : List Segment}
    {choice : Nat → Choice} (precedes : ∀ {p q}, p < q → (choice p).Precedes (choice q))
    {placed : List (Nat × Step × Value)} (increasing : placed.Pairwise fun a b => a.1 < b.1)
    (walks : ∀ {v nodes}, walk v = some nodes → Finds segments v nodes)
    {nodes : List Node} (h : gather walk (placed.map Prod.snd) = some nodes) :
    ∃ chains : List (List Choice × Node), chains.map Prod.snd = nodes ∧
      chains.Pairwise (fun a b => Before a.1 b.1) ∧
      ∀ choices node, (choices, node) ∈ chains ↔
        ∃ place step child tail last, (place, step, child) ∈ placed ∧
          Chain segments child tail last ∧ choices = choice place :: tail ∧
          node = last.under step := by
  induction placed generalizing nodes with
  | nil =>
    rw [List.map_nil, gather_nil] at h
    cases h
    exact ⟨[], rfl, .nil, by simp⟩
  | cons a placed ih =>
    obtain ⟨place, step, child⟩ := a
    obtain ⟨hplace, increasing⟩ := List.pairwise_cons.1 increasing
    rw [List.map_cons, gather_cons, Option.bind_eq_some_iff] at h
    obtain ⟨here, hhere, h⟩ := h
    obtain ⟨below, hbelow, rfl⟩ := Option.map_eq_some_iff.1 h
    obtain ⟨chains, rfl, hchains⟩ := walks hhere
    obtain ⟨more, rfl, hordered, hmore⟩ := ih increasing hbelow
    refine ⟨chainsUnder (choice place) step chains ++ more, ?_, ?_, ?_⟩
    · rw [List.map_append, map_snd_chainsUnder]
    · refine List.pairwise_append.2 ⟨pairwise_chainsUnder hchains.ordered, hordered, ?_⟩
      -- A chain through this child comes before every chain through a later one.
      rintro ⟨choices, node⟩ mem ⟨choices', node'⟩ mem'
      obtain ⟨tail, last, -, rfl, -⟩ := mem_chainsUnder.1 mem
      obtain ⟨place', step', child', tail', last', hplaced, -, rfl, -⟩ := (hmore _ _).1 mem'
      exact .here (precedes (hplace _ hplaced))
    · intro choices node
      rw [List.mem_append, mem_chainsUnder, hmore]
      simp only [hchains.mem_iff]
      constructor
      · rintro (⟨tail, last, hchain, hchoices, hnode⟩ | ⟨place', step', child', tail, last, mem, h⟩)
        · exact ⟨place, step, child, tail, last, List.mem_cons_self, hchain, hchoices, hnode⟩
        · exact ⟨place', step', child', tail, last, List.mem_cons_of_mem _ mem, h⟩
      · rintro ⟨place', step', child', tail, last, mem, h⟩
        rcases List.mem_cons.1 mem with heq | mem
        · cases heq
          exact .inl ⟨tail, last, h⟩
        · exact .inr ⟨place', step', child', tail, last, mem, h⟩

/-! ### Descents -/

/-- The complete chains of a descent stop at the node or go down to a child. -/
theorem chain_descent_iff {segments : List Segment} {v : Value} {choices : List Choice}
    {node : Node} :
    Chain (.descent :: segments) v choices node ↔
      (∃ tail, Chain segments v tail node ∧ choices = .stop :: tail) ∨
        ∃ place step child tail last, (place, step, child) ∈ v.placedChildren ∧
          Chain (.descent :: segments) child tail last ∧ choices = .down place :: tail ∧
          node = last.under step := by
  constructor
  · intro h
    cases h with
    | pick hselects => exact absurd hselects.2 id
    | stop h => exact .inl ⟨_, h, rfl⟩
    | down hchild h => exact .inr ⟨_, _, _, _, _, Value.mem_placedChildren.2 hchild, h, rfl, rfl⟩
  · rintro (⟨tail, h, rfl⟩ | ⟨place, step, child, tail, last, mem, h, rfl, rfl⟩)
    · exact .stop h
    · exact .down (Value.mem_placedChildren.1 mem) h

/-- The chains that stop here. -/
def chainsHere (chains : List (List Choice × Node)) : List (List Choice × Node) :=
  chains.map fun chain => (.stop :: chain.1, chain.2)

/-- Stopping at a node leaves the nodes where the chains end. -/
theorem map_snd_chainsHere (chains : List (List Choice × Node)) :
    (chainsHere chains).map Prod.snd = chains.map Prod.snd := by
  simp [chainsHere]

/-- A chain that stops goes on with one of the chains of the segments behind the descent. -/
theorem mem_chainsHere {chains : List (List Choice × Node)} {choices : List Choice}
    {node : Node} :
    (choices, node) ∈ chainsHere chains ↔
      ∃ tail, (tail, node) ∈ chains ∧ choices = .stop :: tail := by
  simp [chainsHere, eq_comm]

/-- A descent that does not give up finds the nodes of all its chains. -/
theorem finds_of_descend {walk : Nat → Value → Option (List Node)} {segments : List Segment}
    (walks : ∀ {budget v nodes}, walk (budget + 1) v = some nodes → Finds segments v nodes)
    {budget : Nat} {v : Value} {nodes : List Node} (h : descend walk budget v = some nodes) :
    Finds (.descent :: segments) v nodes := by
  -- The induction is on the budget: the descent goes on below each child with one less.
  induction budget generalizing v nodes with
  | zero => cases h
  | succ budget ih =>
    simp only [descend, Option.bind_eq_bind, Option.bind_eq_some_iff, Option.pure_def,
      Option.some.injEq] at h
    obtain ⟨here, hhere, below, hbelow, rfl⟩ := h
    obtain ⟨chains, rfl, hchains⟩ := walks hhere
    rw [← v.map_snd_placedChildren] at hbelow
    obtain ⟨more, rfl, hordered, hmore⟩ :=
      exists_chains_gather Choice.Precedes.down v.pairwise_placedChildren ih hbelow
    refine ⟨chainsHere chains ++ more, ?_, ?_, ?_⟩
    · rw [List.map_append, map_snd_chainsHere]
    · refine List.pairwise_append.2 ⟨?_, hordered, ?_⟩
      · rw [chainsHere, List.pairwise_map]
        exact hchains.ordered.imp .later
      · -- Stopping comes before going down, so what stops here is in front.
        rintro ⟨choices, node⟩ mem ⟨choices', node'⟩ mem'
        obtain ⟨tail, -, rfl⟩ := mem_chainsHere.1 mem
        obtain ⟨place, step, child, tail', last, -, -, rfl, -⟩ := (hmore _ _).1 mem'
        exact .here .stop
    · intro choices node
      rw [List.mem_append, mem_chainsHere, hmore, chain_descent_iff]
      simp only [hchains.mem_iff]

/-- A descent gives up exactly when one of its chains takes as many steps as there is budget. -/
theorem descend_eq_none_iff {walk : Nat → Value → Option (List Node)} {segments : List Segment}
    (walks : ∀ {budget v}, walk (budget + 1) v = none ↔
      ∃ choices, Start segments v choices ∧ budget < descents choices)
    {budget : Nat} {v : Value} :
    descend walk budget v = none ↔
      ∃ choices, Start (.descent :: segments) v choices ∧ budget ≤ descents choices := by
  induction budget generalizing v with
  | zero =>
    -- The chain that breaks off at once takes no step, and that is one too many.
    exact ⟨fun _ => ⟨[], .nil, Nat.zero_le _⟩, fun _ => rfl⟩
  | succ budget ih =>
    have hnone : descend walk (budget + 1) v = none ↔
        walk (budget + 1) v = none ∨ gather (descend walk budget) v.childNodes = none := by
      rw [descend]
      cases walk (budget + 1) v with
      | none => simp
      | some here =>
        cases gather (descend walk budget) v.childNodes with
        | none => simp
        | some below => simp
    rw [hnone, walks, gather_eq_none_iff]
    simp only [ih]
    constructor
    · rintro (⟨choices, h, hlt⟩ | ⟨⟨step, child⟩, mem, choices, h, hle⟩)
      · exact ⟨.stop :: choices, .stop h, hlt⟩
      · obtain ⟨place, hplace⟩ := List.mem_iff_getElem?.1 mem
        exact ⟨.down place :: choices, .down hplace h, Nat.succ_le_succ hle⟩
    · rintro ⟨choices, h, hle⟩
      cases h with
      | nil => exact absurd hle (Nat.not_succ_le_zero _)
      | pick hselects => exact absurd hselects.2 id
      | stop h => exact .inl ⟨_, h, hle⟩
      | down hchild h =>
        exact .inr ⟨_, List.mem_of_getElem? hchild, _, h, Nat.le_of_succ_le_succ hle⟩

/-! ### Paths -/

/-- A segment that is not a descent walks on below the children that it chooses. -/
theorem select_cons {segment : Segment} (h : segment ≠ .descent) (segments : List Segment)
    (budget : Nat) (v : Value) :
    select (segment :: segments) budget v
      = gather (select segments budget) (segment.choose v) := by
  cases segment with
  | descent => exact absurd rfl h
  | _ => rfl

/-- The complete chains of another segment pick a child that the segment selects. -/
theorem chain_cons_iff {segment : Segment} (h : segment ≠ .descent) {segments : List Segment}
    {v : Value} {placed : List (Nat × Step × Value)} (hplaced : segment.Placed v placed)
    {choices : List Choice} {node : Node} :
    Chain (segment :: segments) v choices node ↔
      ∃ place step child tail last, (place, step, child) ∈ placed ∧
        Chain segments child tail last ∧ choices = .pick place :: tail ∧
        node = last.under step := by
  simp only [hplaced.mem_iff]
  constructor
  · intro hchain
    cases hchain with
    | pick hselects hchain => exact ⟨_, _, _, _, _, hselects, hchain, rfl, rfl⟩
    | stop => exact absurd rfl h
    | down => exact absurd rfl h
  · rintro ⟨place, step, child, tail, last, hselects, hchain, rfl, rfl⟩
    exact .pick hselects hchain

/-- A walk that does not give up finds the nodes of all chains. -/
theorem finds_of_select {segments : List Segment} {budget : Nat} {v : Value} {nodes : List Node}
    (h : select segments (budget + 1) v = some nodes) : Finds segments v nodes := by
  induction segments generalizing budget v nodes with
  | nil =>
    rw [select, Option.some.injEq] at h
    subst h
    -- There is nothing left to choose.
    refine ⟨[([], ⟨[], v⟩)], rfl, List.pairwise_singleton _ _, ?_⟩
    intro choices node
    rw [List.mem_singleton, Prod.mk.injEq]
    constructor
    · rintro ⟨rfl, rfl⟩
      exact .done
    · intro hchain
      cases hchain
      exact ⟨rfl, rfl⟩
  | cons segment segments ih =>
    by_cases hdescent : segment = .descent
    · subst hdescent
      exact finds_of_descend ih h
    · obtain ⟨placed, hplaced⟩ := Segment.exists_placed hdescent v
      rw [select_cons hdescent, ← hplaced.children] at h
      obtain ⟨chains, rfl, hordered, hchains⟩ :=
        exists_chains_gather Choice.Precedes.pick hplaced.increasing ih h
      refine ⟨chains, rfl, hordered, ?_⟩
      intro choices node
      rw [hchains, chain_cons_iff hdescent hplaced]

/-- A walk gives up exactly when some chain takes as many steps in its descents as there is
budget. -/
theorem select_eq_none_iff {segments : List Segment} {budget : Nat} {v : Value} :
    select segments (budget + 1) v = none ↔
      ∃ choices, Start segments v choices ∧ budget < descents choices := by
  induction segments generalizing budget v with
  | nil =>
    -- Without segments the walk does not give up, and a chain makes no choice.
    constructor
    · intro h
      rw [select] at h
      cases h
    · rintro ⟨choices, h, hlt⟩
      cases h
      exact absurd hlt (Nat.not_lt_zero _)
  | cons segment segments ih =>
    by_cases hdescent : segment = .descent
    · subst hdescent
      exact descend_eq_none_iff ih
    · obtain ⟨placed, hplaced⟩ := Segment.exists_placed hdescent v
      rw [select_cons hdescent, gather_eq_none_iff, ← hplaced.children]
      simp only [ih]
      constructor
      · -- A pick is no step of a descent, so the count stays the same.
        rintro ⟨child, mem, choices, h, hlt⟩
        obtain ⟨⟨place, step, child⟩, hmem, rfl⟩ := List.mem_map.1 mem
        exact ⟨.pick place :: choices, .pick ((hplaced.mem_iff _ _ _).1 hmem) h, hlt⟩
      · rintro ⟨choices, h, hlt⟩
        cases h with
        | nil => exact absurd hlt (Nat.not_lt_zero _)
        | pick hselects h =>
          exact ⟨_, List.mem_map_of_mem ((hplaced.mem_iff _ _ _).2 hselects), _, h, hlt⟩
        | stop => exact absurd rfl hdescent
        | down => exact absurd rfl hdescent

/-- The values that a path leads to, under every limit: the limit is reported exactly when some
chain, complete or not, takes more steps in its descents than it allows; otherwise the values are
those at the ends of all complete chains, one for each chain and in the order of the chains. -/
theorem Path.getAll_follows_chains (path : Path) (limits : Limits) (root : Value) :
    (path.getAll limits root = .error (.tooDeep limits.maxDepth) ↔
        ∃ choices, Start path.segments root choices ∧ limits.maxDepth < descents choices) ∧
      ((¬∃ choices, Start path.segments root choices ∧ limits.maxDepth < descents choices) →
        ∃ chains : List (List Choice × Node),
          path.getAll limits root = .ok (chains.map fun chain => chain.2.value) ∧
          path.nodes limits root = .ok (chains.map Prod.snd) ∧
          (chains.map Prod.fst).Nodup ∧ chains.Pairwise (fun a b => Before a.1 b.1) ∧
          ∀ choices node, (choices, node) ∈ chains ↔ Chain path.segments root choices node) := by
  rw [← select_eq_none_iff]
  cases hselect : select path.segments (limits.maxDepth + 1) root with
  | none =>
    refine ⟨?_, fun h => absurd rfl h⟩
    simp [Path.getAll, Path.nodes, hselect, Except.map]
  | some nodes =>
    have hnodes : path.nodes limits root = .ok nodes := by rw [Path.nodes, hselect]
    have hgetAll : path.getAll limits root = .ok (nodes.map Node.value) := by
      rw [Path.getAll, hnodes]
      rfl
    refine ⟨?_, fun _ => ?_⟩
    · simp [hgetAll]
    · obtain ⟨chains, rfl, hchains⟩ := finds_of_select hselect
      refine ⟨chains, ?_, hnodes, hchains.nodup, hchains.ordered, hchains.mem_iff⟩
      rw [hgetAll, List.map_map]
      rfl

/-- The last items of both arrays of `{"a": [1, [2, 3]]}`, each at the end of a chain of its own.
The chain to the `3` goes down twice in the descent, which is too much under a limit of one. -/
theorem Path.getAll_follows_chains_last :
    ∃ (path : Path) (root inner : Value), Path.compile "$..[-1]" = .ok path ∧
      inner = .array [.ofInt 2, .ofInt 3] ∧ root = .object [("a", .array [.ofInt 1, inner])] ∧
      path.getAll {} root = .ok [inner, .ofInt 3] ∧
      (∃ chains : List (List Choice × Node),
        path.getAll {} root = .ok (chains.map fun chain => chain.2.value) ∧
        ([.down 0, .stop, .pick 1], ⟨[.key "a", .item 1], inner⟩) ∈ chains ∧
        ([.down 0, .down 1, .stop, .pick 1], ⟨[.key "a", .item 1, .item 1], .ofInt 3⟩) ∈ chains) ∧
      path.getAll { maxDepth := 1 } root = .error (.tooDeep 1) := by
  let path : Path := ⟨"$..[-1]", [.descent, .index (-1)]⟩
  let inner : Value := .array [.ofInt 2, .ofInt 3]
  let root : Value := .object [("a", .array [.ofInt 1, inner])]
  have hpath : Path.compile "$..[-1]" = .ok path := by decide +kernel
  have hgetAll : path.getAll {} root = .ok [inner, .ofInt 3] := rfl
  -- Both arrays have two items, so that the last is the one at place 1.
  have hselects (a b : Value) :
      (Segment.index (-1)).Selects (.array [a, b]) 1 (.item 1) b := ⟨rfl, [a, b], rfl, rfl⟩
  have houter : Chain path.segments root [.down 0, .stop, .pick 1]
      ⟨[.key "a", .item 1], inner⟩ :=
    .down rfl (.stop (.pick (hselects _ _) .done))
  have hinner : Chain path.segments root [.down 0, .down 1, .stop, .pick 1]
      ⟨[.key "a", .item 1, .item 1], .ofInt 3⟩ :=
    .down rfl (.down rfl (.stop (.pick (hselects _ _) .done)))
  obtain ⟨hdeep, hfound⟩ := path.getAll_follows_chains {} root
  obtain ⟨chains, hchains, -, -, -, hmem⟩ := hfound (mt hdeep.2 (by rw [hgetAll]; nofun))
  refine ⟨path, root, inner, hpath, rfl, rfl, hgetAll, ?_, ?_⟩
  · exact ⟨chains, hchains, (hmem _ _).2 houter, (hmem _ _).2 hinner⟩
  · exact (path.getAll_follows_chains { maxDepth := 1 } root).1.2 ⟨_, hinner.start, by decide⟩

end JsonDoc
