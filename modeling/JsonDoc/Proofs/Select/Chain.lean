import JsonDoc.Path.Select
import Mathlib.Data.List.Basic

/-!
# `JsonDoc.Proofs.Select.Chain`: ways to follow the segments of a path

A chain is one way to follow the segments of a path from a node on, as the list of choices that
it makes: to which child a segment goes on, and in a descent whether it stops or goes down to a
child. Children are named by their places among all children.

* `Segment.Selects` says to which children a segment leads, with no walk: the member with the
  name, the item at the resolved index, any child, or any child that satisfies the condition.
* `Chain` are the chains that follow all segments, with the node where each ends; `Start` are
  those and the ones that break off anywhere.
* `descents` counts the steps that the descents of a chain take.
* `Before` orders chains by the first choice in which they differ.
* `Segment.exists_placed`: the children that the walk chooses are the ones that the segment
  selects, in the order of their places.
-/

set_option autoImplicit false

namespace JsonDoc

/-! ### Places among the children -/

namespace Value

/-- The children with their places. -/
def placedChildren (v : Value) : List (Nat × Step × Value) :=
  v.childNodes.zipIdx.map fun (child, place) => (place, child)

/-- The children without their places. -/
theorem map_snd_placedChildren (v : Value) : v.placedChildren.map Prod.snd = v.childNodes := by
  rw [placedChildren, List.map_map]
  exact List.zipIdx_map_fst 0 v.childNodes

/-- The children stand in the order of their places. -/
theorem pairwise_placedChildren (v : Value) :
    v.placedChildren.Pairwise fun a b => a.1 < b.1 := by
  have hplaces : v.placedChildren.map Prod.fst = List.range' 0 v.childNodes.length := by
    rw [placedChildren, List.map_map]
    exact List.zipIdx_map_snd 0 v.childNodes
  rw [← List.pairwise_map, hplaces]
  exact List.pairwise_lt_range'

/-- The child at a place is the one that the list of children has there. -/
theorem mem_placedChildren {v : Value} {place : Nat} {child : Step × Value} :
    (place, child) ∈ v.placedChildren ↔ v.childNodes[place]? = some child := by
  rw [← List.mk_mem_zipIdx_iff_getElem?, placedChildren, List.mem_map]
  constructor
  · rintro ⟨⟨c, p⟩, mem, heq⟩
    cases heq
    exact mem
  · intro mem
    exact ⟨(child, place), mem, rfl⟩

/-- The child at a place of an array is the item at that place. -/
theorem getElem?_childNodes_array {items : List Value} {place : Nat} {step : Step} {child : Value} :
    (array items).childNodes[place]? = some (step, child) ↔
      step = .item place ∧ items[place]? = some child := by
  rw [childNodes, List.getElem?_map, List.getElem?_zipIdx]
  cases items[place]? with
  | none => simp
  | some item => simp [eq_comm]

/-- The child at a place of an object is the member at that place. -/
theorem getElem?_childNodes_object {members : List (String × Value)} {place : Nat} {name : String}
    {child : Value} :
    (object members).childNodes[place]? = some (.key name, child) ↔
      members[place]? = some (name, child) := by
  simp [childNodes]

end Value

/-! ### What a segment selects -/

/-- The segment leads from a node to the child at this place among its children. -/
def Segment.Selects (segment : Segment) (v : Value) (place : Nat) (step : Step) (child : Value) :
    Prop :=
  v.childNodes[place]? = some (step, child) ∧
    match segment with
    | property name =>
      -- Keys differ in every document that can be built, so that the first is the only one.
      step = .key name ∧ ∀ earlier < place, ∀ other,
        v.childNodes[earlier]? ≠ some (.key name, other)
    | index i => ∃ items, v = .array items ∧ resolveIndex items.length i = some place
    | wildcard => True
    | filter condition => condition.holds child = true
    | descent => False

/-- A property selects at most one place. -/
theorem Segment.Selects.place_unique {name : String} {v : Value} {place place' : Nat}
    {step step' : Step} {child child' : Value} (h : (property name).Selects v place step child)
    (h' : (property name).Selects v place' step' child') : place = place' := by
  obtain ⟨hat, rfl, hfirst⟩ := h
  obtain ⟨hat', rfl, hfirst'⟩ := h'
  rcases Nat.lt_trichotomy place place' with hlt | heq | hlt
  · exact absurd hat (hfirst' place hlt child)
  · exact heq
  · exact absurd hat' (hfirst place' hlt child')

/-- Looking up a key finds the first member with that key. -/
theorem Members.get?_eq_some_iff {α : Type} {members : List (String × α)} {key : String} {a : α} :
    get? members key = some a ↔
      ∃ place : Nat, members[place]? = some (key, a) ∧
        ∀ earlier < place, ∀ b, members[earlier]? ≠ some (key, b) := by
  induction members with
  | nil => simp [get?]
  | cons m rest ih =>
    obtain ⟨k, b⟩ := m
    rw [get?, List.lookup_cons]
    -- The member in front is the one, or it is passed over and every place is one further.
    by_cases hk : key = k
    · subst hk
      rw [beq_self_eq_true]
      constructor
      · intro h
        cases h
        exact ⟨0, rfl, fun earlier hlt => absurd hlt (Nat.not_lt_zero _)⟩
      · rintro ⟨place, hat, hfirst⟩
        cases place with
        | zero => simpa using hat
        | succ place => exact absurd rfl (hfirst 0 (Nat.succ_pos _) b)
    · have hbeq : (key == k) = false := by simpa using hk
      rw [hbeq]
      refine ih.trans ⟨?_, ?_⟩
      · rintro ⟨place, hat, hfirst⟩
        refine ⟨place + 1, hat, ?_⟩
        intro earlier hlt other
        cases earlier with
        | zero =>
          intro heq
          cases heq
          exact hk rfl
        | succ earlier => exact hfirst earlier (by omega) other
      · rintro ⟨place, hat, hfirst⟩
        cases place with
        | zero =>
          cases hat
          exact absurd rfl hk
        | succ place =>
          refine ⟨place, hat, ?_⟩
          intro earlier hlt other
          exact hfirst (earlier + 1) (by omega) other

/-- The child under a key is the one that the property selects. -/
theorem Value.child?_key_eq_some_iff {v child : Value} {name : String} :
    v.child? (.key name) = some child ↔
      ∃ place, (Segment.property name).Selects v place (.key name) child := by
  cases v with
  | object members =>
    rw [Value.child?, Members.get?_eq_some_iff]
    simp only [Segment.Selects, ne_eq, Value.getElem?_childNodes_object, true_and]
  | array items =>
    -- The steps to the items of an array are never keys.
    constructor
    · intro h
      cases h
    · rintro ⟨place, hat, -⟩
      cases (Value.getElem?_childNodes_array.1 hat).1
  | _ =>
    constructor
    · intro h
      cases h
    · rintro ⟨place, hat, -⟩
      cases hat

/-- The list holds the children that the walk chooses, with their places in increasing order,
and they are the ones that the segment selects. -/
structure Segment.Placed (segment : Segment) (v : Value) (placed : List (Nat × Step × Value)) :
    Prop where
  children : placed.map Prod.snd = segment.choose v
  increasing : placed.Pairwise fun a b => a.1 < b.1
  mem_iff : ∀ place step child,
    (place, step, child) ∈ placed ↔ segment.Selects v place step child

/-- A segment that selects nothing. -/
theorem Segment.Placed.nil {segment : Segment} {v : Value} (hchoose : segment.choose v = [])
    (none : ∀ place step child, ¬segment.Selects v place step child) : segment.Placed v [] := by
  refine ⟨hchoose.symm, .nil, ?_⟩
  intro place step child
  exact ⟨fun mem => absurd mem List.not_mem_nil, fun h => absurd h (none place step child)⟩

/-- A segment that selects one child. -/
theorem Segment.Placed.singleton {segment : Segment} {v child : Value} {place : Nat} {step : Step}
    (hchoose : segment.choose v = [(step, child)]) (here : segment.Selects v place step child)
    (only : ∀ place' step' child', segment.Selects v place' step' child' → place' = place) :
    segment.Placed v [(place, step, child)] := by
  refine ⟨hchoose.symm, List.pairwise_singleton _ _, ?_⟩
  intro place' step' child'
  rw [List.mem_singleton]
  constructor
  · intro heq
    cases heq
    exact here
  · intro h
    obtain rfl := only place' step' child' h
    have hsame := here.1.symm.trans h.1
    cases hsame
    rfl

/-- Every segment that is not a descent chooses the children that it selects, in the order of
their places. -/
theorem Segment.exists_placed {segment : Segment} (h : segment ≠ descent) (v : Value) :
    ∃ placed, segment.Placed v placed := by
  cases segment with
  | descent => exact absurd rfl h
  | wildcard =>
    refine ⟨v.placedChildren, v.map_snd_placedChildren, v.pairwise_placedChildren, ?_⟩
    intro place step child
    rw [Value.mem_placedChildren, Selects, and_true]
  | filter condition =>
    refine ⟨v.placedChildren.filter fun a => condition.holds a.2.2, ?_,
      v.pairwise_placedChildren.filter _, ?_⟩
    · rw [choose, ← v.map_snd_placedChildren, List.filter_map]
      rfl
    · intro place step child
      rw [List.mem_filter, Value.mem_placedChildren, Selects]
  | property name =>
    cases hchild : v.child? (.key name) with
    | none =>
      refine ⟨[], .nil (by simp [choose, hchild]) ?_⟩
      intro place step child hselects
      obtain ⟨-, rfl, -⟩ := id hselects
      rw [Value.child?_key_eq_some_iff.2 ⟨place, hselects⟩] at hchild
      cases hchild
    | some child =>
      obtain ⟨place, hplace⟩ := Value.child?_key_eq_some_iff.1 hchild
      refine ⟨[(place, .key name, child)], .singleton (by simp [choose, hchild]) hplace ?_⟩
      exact fun place' step' child' h' => h'.place_unique hplace
  | index i =>
    -- An index that resolves and is in bounds selects one place, and any other selects none.
    by_cases hfound : ∃ place step child, (index i).Selects v place step child
    · obtain ⟨place, step, child, hplace⟩ := hfound
      obtain ⟨hat, items, rfl, hresolve⟩ := id hplace
      obtain ⟨rfl, hitem⟩ := Value.getElem?_childNodes_array.1 hat
      refine ⟨[(place, .item place, child)],
        .singleton (by simp [choose, hresolve, hitem]) hplace ?_⟩
      rintro place' step' child' ⟨-, items', heq, hresolve'⟩
      cases heq
      exact Option.some.inj (hresolve'.symm.trans hresolve)
    · refine ⟨[], .nil ?_ ?_⟩
      · rw [choose.eq_def]
        dsimp only
        split
        · next items =>
          split
          · next place hresolve =>
            split
            · next child hitem =>
              refine absurd ⟨place, .item place, child, ?_, items, rfl, hresolve⟩ hfound
              exact Value.getElem?_childNodes_array.2 ⟨rfl, hitem⟩
            · rfl
          · rfl
        · rfl
      · intro place step child hselects
        exact hfound ⟨place, step, child, hselects⟩

/-! ### Chains -/

/-- What a chain does next. -/
inductive Choice where
  /-- A segment that is not a descent goes on to the child at this place. -/
  | pick (place : Nat)
  /-- A descent stops at the node it is at. -/
  | stop
  /-- A descent goes down to the child at this place. -/
  | down (place : Nat)
  deriving DecidableEq, Repr

/-- How many steps the descents of a chain take. -/
def descents : List Choice → Nat
  | [] => 0
  | .down _ :: choices => descents choices + 1
  | _ :: choices => descents choices

/-- The chains that follow all segments from a node, and the nodes where they end. -/
inductive Chain : List Segment → Value → List Choice → Node → Prop where
  | done {v : Value} : Chain [] v [] ⟨[], v⟩
  | pick {segment : Segment} {segments : List Segment} {v child : Value} {place : Nat} {step : Step}
      {choices : List Choice} {node : Node} : segment.Selects v place step child →
      Chain segments child choices node →
      Chain (segment :: segments) v (.pick place :: choices) (node.under step)
  | stop {segments : List Segment} {v : Value} {choices : List Choice} {node : Node} :
      Chain segments v choices node → Chain (.descent :: segments) v (.stop :: choices) node
  | down {segments : List Segment} {v child : Value} {place : Nat} {step : Step}
      {choices : List Choice} {node : Node} : v.childNodes[place]? = some (step, child) →
      Chain (.descent :: segments) child choices node →
      Chain (.descent :: segments) v (.down place :: choices) (node.under step)

/-- The chains that follow the segments from a node and may break off anywhere. -/
inductive Start : List Segment → Value → List Choice → Prop where
  | nil {segments : List Segment} {v : Value} : Start segments v []
  | pick {segment : Segment} {segments : List Segment} {v child : Value} {place : Nat} {step : Step}
      {choices : List Choice} : segment.Selects v place step child →
      Start segments child choices → Start (segment :: segments) v (.pick place :: choices)
  | stop {segments : List Segment} {v : Value} {choices : List Choice} :
      Start segments v choices → Start (.descent :: segments) v (.stop :: choices)
  | down {segments : List Segment} {v child : Value} {place : Nat} {step : Step}
      {choices : List Choice} : v.childNodes[place]? = some (step, child) →
      Start (.descent :: segments) child choices →
      Start (.descent :: segments) v (.down place :: choices)

/-- A complete chain is one that may break off anywhere and does not. -/
theorem Chain.start {segments : List Segment} {v : Value} {choices : List Choice} {node : Node}
    (h : Chain segments v choices node) : Start segments v choices := by
  induction h with
  | done => exact .nil
  | pick hselects _ ih => exact .pick hselects ih
  | stop _ ih => exact .stop ih
  | down hchild _ ih => exact .down hchild ih

/-! ### The order of chains -/

/-- The first of two choices at the same node: children in their order, and in a descent
stopping before going on. -/
inductive Choice.Precedes : Choice → Choice → Prop where
  | pick {place place' : Nat} : place < place' → Precedes (.pick place) (.pick place')
  | down {place place' : Nat} : place < place' → Precedes (.down place) (.down place')
  | stop {place : Nat} : Precedes .stop (.down place)

/-- The order of two chains by the first choice in which they differ. -/
inductive Before : List Choice → List Choice → Prop where
  | here {a b : Choice} {choices choices' : List Choice} : a.Precedes b →
      Before (a :: choices) (b :: choices')
  | later {a : Choice} {choices choices' : List Choice} : Before choices choices' →
      Before (a :: choices) (a :: choices')

/-- No chain comes before itself, so a list of chains in this order lists each of them once. -/
theorem Before.irrefl (choices : List Choice) : ¬Before choices choices := by
  intro h
  induction choices with
  | nil => cases h
  | cons a choices ih =>
    cases h with
    | here hprecedes =>
      cases hprecedes with
      | pick hlt => exact absurd hlt (Nat.lt_irrefl _)
      | down hlt => exact absurd hlt (Nat.lt_irrefl _)
    | later h => exact ih h

end JsonDoc
