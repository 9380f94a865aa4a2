import JsonDoc.Proofs.Select.First

/-!
# `JsonDoc.Proofs.Select.Address`: the locations that segments lead to, and how far down they are

`Addresses` says that segments lead from a value to a location, with no walk and no budget. It is
opened segment by segment, and is what a walk that does not give up has found
(`addresses_iff_of_select`). `addressed` decides it by going down along the location alone.

`Value.Within` bounds the number of steps that lead down from a value. A descent that does not
give up has gone down everywhere (`within_of_descend`), and where a bound is less than the budget
no walk gives up (`exists_select_of_within`).
-/

set_option autoImplicit false

namespace JsonDoc

/-! ### Locations -/

/-- The segments lead from the value to the location. -/
def Addresses (segments : List Segment) (v : Value) (location : Location) : Prop :=
  ∃ choices node, Chain segments v choices node ∧ node.location = location

section
variable {segment : Segment} {segments : List Segment} {v : Value} {location : Location}

/-- Without segments only the node itself is addressed. -/
theorem addresses_nil : Addresses [] v location ↔ location = [] := by
  constructor
  · rintro ⟨choices, node, h, rfl⟩
    cases h
    rfl
  · rintro rfl
    exact ⟨[], _, .done, rfl⟩

/-- A segment that is not a descent addresses what the rest addresses below the children that it
chooses. -/
theorem addresses_cons (h : segment ≠ .descent) :
    Addresses (segment :: segments) v location ↔
      ∃ node ∈ segment.choose v, ∃ rest, Addresses segments node.2 rest ∧
        location = node.1 :: rest := by
  obtain ⟨placed, hplaced⟩ := Segment.exists_placed h v
  rw [← hplaced.children]
  constructor
  · rintro ⟨choices, node, hchain, rfl⟩
    obtain ⟨place, step, child, tail, last, mem, hlast, -, rfl⟩ :=
      (chain_cons_iff h hplaced).1 hchain
    exact ⟨(step, child), List.mem_map_of_mem mem, last.location, ⟨tail, last, hlast, rfl⟩, rfl⟩
  · rintro ⟨node, mem, rest, ⟨tail, last, hlast, rfl⟩, rfl⟩
    obtain ⟨⟨place, step, child⟩, hmem, rfl⟩ := List.mem_map.1 mem
    refine ⟨.pick place :: tail, last.under step, ?_, rfl⟩
    exact (chain_cons_iff h hplaced).2 ⟨place, step, child, tail, last, hmem, hlast, rfl, rfl⟩

/-- A descent addresses what the rest addresses from the node on, and what the descent addresses
from its children on. -/
theorem addresses_descent :
    Addresses (.descent :: segments) v location ↔
      Addresses segments v location ∨
        ∃ node ∈ v.childNodes, ∃ rest, Addresses (.descent :: segments) node.2 rest ∧
          location = node.1 :: rest := by
  rw [← v.map_snd_placedChildren]
  constructor
  · rintro ⟨choices, node, hchain, rfl⟩
    obtain ⟨tail, h, -⟩ | ⟨place, step, child, tail, last, mem, hlast, -, rfl⟩ :=
      chain_descent_iff.1 hchain
    · exact .inl ⟨tail, node, h, rfl⟩
    · exact .inr ⟨(step, child), List.mem_map_of_mem mem, last.location, ⟨tail, last, hlast, rfl⟩,
        rfl⟩
  · rintro (⟨tail, node, h, rfl⟩ | ⟨node, mem, rest, ⟨tail, last, hlast, rfl⟩, rfl⟩)
    · exact ⟨_, node, chain_descent_iff.2 (.inl ⟨tail, h, rfl⟩), rfl⟩
    · obtain ⟨⟨place, step, child⟩, hmem, rfl⟩ := List.mem_map.1 mem
      exact ⟨_, last.under step,
        chain_descent_iff.2 (.inr ⟨place, step, child, tail, last, hmem, hlast, rfl, rfl⟩), rfl⟩

/-- A walk that does not give up finds just the locations that the segments lead to. -/
theorem addresses_iff_of_select {budget : Nat} {nodes : List Node}
    (h : select segments (budget + 1) v = some nodes) :
    Addresses segments v location ↔ location ∈ nodes.map Node.location := by
  obtain ⟨chains, rfl, hchains⟩ := finds_of_select h
  rw [List.map_map, List.mem_map]
  constructor
  · rintro ⟨choices, node, hchain, rfl⟩
    exact ⟨(choices, node), (hchains.mem_iff choices node).2 hchain, rfl⟩
  · rintro ⟨⟨choices, node⟩, mem, rfl⟩
    exact ⟨choices, node, (hchains.mem_iff choices node).1 mem, rfl⟩

/-- A walk that does not give up finds nothing exactly if nothing is addressed. -/
theorem eq_nil_of_select {budget : Nat} {nodes : List Node}
    (h : select segments (budget + 1) v = some nodes) :
    nodes = [] ↔ ∀ location, ¬Addresses segments v location := by
  simp only [addresses_iff_of_select h, ← List.eq_nil_iff_forall_not_mem, List.map_eq_nil_iff]

end

/-! ### Locations, decided -/

/-- Whether a descent leads to the location, where `here` decides it for the segments behind. -/
def addressedBelow (here : Value → Location → Bool) : Value → Location → Bool
  | v, [] => here v []
  | v, step :: rest =>
    here v (step :: rest) ||
      v.childNodes.any fun node => decide (node.1 = step) && addressedBelow here node.2 rest

/-- Whether the segments lead from the value to the location. -/
def addressed : List Segment → Value → Location → Bool
  | [], _, location => location.isEmpty
  | .descent :: rest, v, location => addressedBelow (addressed rest) v location
  | segment :: rest, v, location =>
    match location with
    | [] => false
    | step :: location =>
      (segment.choose v).any fun node => decide (node.1 = step) && addressed rest node.2 location

section
variable {segment : Segment} {segments : List Segment} {v : Value} {location : Location}

/-- A segment that is not a descent leads down, so that the node itself is not addressed. -/
theorem addressed_cons_nil (h : segment ≠ .descent) :
    addressed (segment :: segments) v [] = false := by
  cases segment with
  | descent => exact absurd rfl h
  | _ => rfl

/-- Below a child, what is addressed is what the rest addresses from that child on, if the segment
chooses it. -/
theorem addressed_cons_cons (h : segment ≠ .descent) (step : Step) :
    addressed (segment :: segments) v (step :: location) = (segment.choose v).any fun node =>
      decide (node.1 = step) && addressed segments node.2 location := by
  cases segment with
  | descent => exact absurd rfl h
  | _ => rfl

/-- The test agrees with the relation. -/
theorem addressed_iff : addressed segments v location = true ↔ Addresses segments v location := by
  induction segments generalizing v location with
  | nil => rw [addressed, List.isEmpty_iff, addresses_nil]
  | cons segment rest ih =>
    by_cases hsegment : segment = .descent
    · subst hsegment
      rw [addressed]
      -- A descent goes down one step of the location at a time.
      induction location generalizing v with
      | nil =>
        rw [addressedBelow, ih, addresses_descent]
        simp
      | cons step location ihlocation =>
        rw [addressedBelow, Bool.or_eq_true, ih, addresses_descent]
        simp only [List.any_eq_true, Bool.and_eq_true, decide_eq_true_eq, ihlocation,
          List.cons.injEq]
        refine or_congr_right (exists_congr fun node => and_congr_right fun _ => ?_)
        constructor
        · rintro ⟨rfl, h⟩
          exact ⟨location, h, rfl, rfl⟩
        · rintro ⟨_, h, rfl, rfl⟩
          exact ⟨rfl, h⟩
    · rw [addresses_cons hsegment]
      cases location with
      | nil =>
        rw [addressed_cons_nil hsegment]
        simp
      | cons step location =>
        rw [addressed_cons_cons hsegment]
        simp only [List.any_eq_true, Bool.and_eq_true, decide_eq_true_eq, ih, List.cons.injEq]
        refine exists_congr fun node => and_congr_right fun _ => ?_
        constructor
        · rintro ⟨rfl, h⟩
          exact ⟨location, h, rfl, rfl⟩
        · rintro ⟨_, h, rfl, rfl⟩
          exact ⟨rfl, h⟩

/-- What a walk that does not give up has found decides it as well. -/
theorem addressed_eq_of_select {budget : Nat} {nodes : List Node}
    (h : select segments (budget + 1) v = some nodes) :
    addressed segments v = fun location => decide (location ∈ nodes.map Node.location) := by
  funext location
  rw [Bool.eq_iff_iff, addressed_iff, addresses_iff_of_select h, decide_eq_true_eq]

end

/-! ### How far down a value goes -/

/-- At most `n` steps lead down from the value. -/
def Value.Within : Nat → Value → Prop
  | 0, v => v.children = []
  | n + 1, v => ∀ child ∈ v.children, Within n child

/-- The children of a value are within a bound that is smaller by one. -/
theorem Value.Within.exists_of_mem {n : Nat} {v child : Value} (h : v.Within n)
    (mem : child ∈ v.children) : ∃ m, n = m + 1 ∧ child.Within m := by
  cases n with
  | zero =>
    rw [Within] at h
    rw [h] at mem
    cases mem
  | succ m => exact ⟨m, rfl, h child mem⟩

/-- A segment chooses among the children. -/
theorem mem_childNodes_of_mem_choose {segment : Segment} {v : Value} {node : Step × Value}
    (h : node ∈ segment.choose v) : node ∈ v.childNodes := by
  by_cases hsegment : segment = .descent
  · subst hsegment
    exact h
  · obtain ⟨placed, hplaced⟩ := Segment.exists_placed hsegment v
    rw [← hplaced.children] at h
    obtain ⟨⟨place, step, child⟩, hmem, rfl⟩ := List.mem_map.1 h
    exact List.mem_of_getElem? ((hplaced.mem_iff place step child).1 hmem).1

/-- What a segment leads to is a child. -/
theorem mem_children_of_mem_choose {segment : Segment} {v : Value} {node : Step × Value}
    (h : node ∈ segment.choose v) : node.2 ∈ v.children := by
  rw [← v.childNodes_map_snd]
  exact List.mem_map_of_mem (mem_childNodes_of_mem_choose h)

/-- The walk over some children does not give up if it gives up below none of them. -/
theorem exists_gather {walk : Value → Option (List Node)} {children : List (Step × Value)}
    (h : ∀ node ∈ children, ∃ nodes, walk node.2 = some nodes) :
    ∃ nodes, gather walk children = some nodes := by
  rw [← Option.ne_none_iff_exists', Ne, gather_eq_none_iff]
  rintro ⟨node, mem, hnone⟩
  obtain ⟨nodes, hsome⟩ := h node mem
  rw [hnone] at hsome
  cases hsome

/-- A descent that does not give up has come to every child with one step less. -/
theorem exists_descend_of_mem {walk : Nat → Value → Option (List Node)} {n : Nat} {v child : Value}
    {nodes : List Node} (h : descend walk (n + 1) v = some nodes) (mem : child ∈ v.children) :
    ∃ nodes, descend walk n child = some nodes := by
  simp only [descend, Option.bind_eq_bind, Option.bind_eq_some_iff] at h
  obtain ⟨here, -, below, hbelow, -⟩ := h
  -- The descent was asked below every child.
  rw [← v.childNodes_map_snd] at mem
  obtain ⟨node, hnode, rfl⟩ := List.mem_map.1 mem
  rw [← Option.ne_none_iff_exists']
  intro hnone
  rw [gather_eq_none_iff.2 ⟨node, hnode, hnone⟩] at hbelow
  cases hbelow

/-- A descent that does not give up has gone down everywhere. -/
theorem within_of_descend {walk : Nat → Value → Option (List Node)} {n : Nat} {v : Value}
    {nodes : List Node} (h : descend walk (n + 1) v = some nodes) : v.Within n := by
  induction n generalizing v nodes with
  | zero =>
    refine List.eq_nil_iff_forall_not_mem.2 fun child mem => ?_
    obtain ⟨nodes, hnodes⟩ := exists_descend_of_mem h mem
    cases hnodes
  | succ n ih =>
    intro child mem
    obtain ⟨nodes, hnodes⟩ := exists_descend_of_mem h mem
    exact ih hnodes

/-- A descent does not give up if the budget is larger than the value is deep. -/
theorem exists_descend_of_within {walk : Nat → Value → Option (List Node)}
    (walks : ∀ {n budget v}, v.Within n → n < budget → ∃ nodes, walk budget v = some nodes)
    {n budget : Nat} {v : Value} (h : v.Within n) (lt : n < budget) :
    ∃ nodes, descend walk budget v = some nodes := by
  induction budget generalizing n v with
  | zero => exact absurd lt (Nat.not_lt_zero n)
  | succ budget ih =>
    obtain ⟨here, hhere⟩ := walks h lt
    obtain ⟨below, hbelow⟩ : ∃ nodes, gather (descend walk budget) v.childNodes = some nodes := by
      refine exists_gather fun node mem => ?_
      have mem : node.2 ∈ v.children := by
        rw [← v.childNodes_map_snd]
        exact List.mem_map_of_mem mem
      obtain ⟨m, rfl, hchild⟩ := h.exists_of_mem mem
      exact ih hchild (Nat.lt_of_succ_lt_succ lt)
    refine ⟨here ++ below, ?_⟩
    rw [descend, hhere, hbelow]
    rfl

/-- No walk gives up within the budget. -/
theorem exists_select_of_within {segments : List Segment} {n budget : Nat} {v : Value}
    (h : v.Within n) (lt : n < budget) : ∃ nodes, select segments budget v = some nodes := by
  induction segments generalizing n budget v with
  | nil => exact ⟨_, rfl⟩
  | cons segment rest ih =>
    by_cases hsegment : segment = .descent
    · subst hsegment
      exact exists_descend_of_within ih h lt
    · rw [select_cons hsegment]
      refine exists_gather fun node mem => ?_
      obtain ⟨m, rfl, hchild⟩ := h.exists_of_mem (mem_children_of_mem_choose mem)
      exact ih hchild (Nat.lt_of_succ_lt lt)

end JsonDoc
