import JsonDoc.Error
import JsonDoc.Path.Condition
import JsonDoc.Settings
import JsonDoc.Value.Location

/-!
# `JsonDoc.Path.Select`: the nodes that a path leads to

`select` gives the nodes that a list of segments leads to, each with its location, in pre-order:
the children of a node in their natural order, and in a descent the node itself before what is
below it. A node to which several ways lead is given once for each.

The descents of a path share a budget of steps: it is what is left of the limit, plus one, and a
descent that comes to a node with nothing left gives up. A walk that gives up anywhere gives
nothing, in `select`; `first` stops at the first node that it finds, and so may find one before
the place where it would have to give up.
-/

set_option autoImplicit false

namespace JsonDoc

namespace Segment

/-- The children of a node that the segment leads to, with the steps; a descent leads to all. -/
def choose (segment : Segment) (v : Value) : List (Step × Value) :=
  match segment with
  | property name =>
    match v.child? (.key name) with
    | some child => [(.key name, child)]
    | none => []
  | index i =>
    match v with
    | .array items =>
      match resolveIndex items.length i with
      | some place =>
        match items[place]? with
        | some child => [(.item place, child)]
        | none => []
      | none => []
    | _ => []
  | wildcard => v.childNodes
  | filter condition => v.childNodes.filter fun child => condition.holds child.2
  | descent => v.childNodes

end Segment

/-- The nodes found below each of some children, one child after the other; nothing if the walk
gives up below one of them. -/
def gather (walk : Value → Option (List Node)) (children : List (Step × Value)) :
    Option (List Node) :=
  (children.mapM fun child => (walk child.2).map (·.map (Node.under child.1))).map List.flatten

/-- The nodes that `walk` finds from a node and from everything below it. One step down takes
one from the budget. -/
def descend (walk : Nat → Value → Option (List Node)) : (budget : Nat) → Value → Option (List Node)
  | 0, _ => none
  | budget + 1, v => do
    -- What is left of the budget also serves the descents further on in the path.
    let here ← walk (budget + 1) v
    let below ← gather (descend walk budget) v.childNodes
    pure (here ++ below)

/-- The nodes that the segments lead to, with their locations below the node given; nothing if
the walk gives up. -/
def select : List Segment → (budget : Nat) → Value → Option (List Node)
  | [], _, v => some [⟨[], v⟩]
  | .descent :: rest, budget, v => descend (select rest) budget v
  | segment :: rest, budget, v => gather (select rest budget) (segment.choose v)

/-- What a walk for one node comes to. -/
inductive Search where
  /-- A node was found. -/
  | found (node : Node)
  /-- There is none. -/
  | absent
  /-- The walk gave up before it found one. -/
  | gaveUp

/-- The search seen from one step above. -/
def Search.under (step : Step) : Search → Search
  | found node => found (node.under step)
  | absent => absent
  | gaveUp => gaveUp

/-- The first of some children below which the search comes to anything. -/
def searchEach (walk : Value → Search) : List (Step × Value) → Search
  | [] => .absent
  | (step, child) :: rest =>
    match walk child with
    | .absent => searchEach walk rest
    | result => result.under step

/-- The first node that `walk` finds from a node or from something below it. -/
def searchBelow (walk : Nat → Value → Search) : (budget : Nat) → Value → Search
  | 0, _ => .gaveUp
  | budget + 1, v =>
    match walk (budget + 1) v with
    | .absent => searchEach (searchBelow walk budget) v.childNodes
    | result => result

/-- The first node that the segments lead to. -/
def searchFirst : List Segment → (budget : Nat) → Value → Search
  | [], _, v => .found ⟨[], v⟩
  | .descent :: rest, budget, v => searchBelow (searchFirst rest) budget v
  | segment :: rest, budget, v => searchEach (searchFirst rest budget) (segment.choose v)

namespace Path

/-- The nodes that the path leads to, in pre-order. -/
def nodes (path : Path) (limits : Limits) (root : Value) : Except Error (List Node) :=
  match select path.segments (limits.maxDepth + 1) root with
  | some nodes => .ok nodes
  | none => .error (.tooDeep limits.maxDepth)

/-- The values that the path leads to, in pre-order. -/
def getAll (path : Path) (limits : Limits) (root : Value) : Except Error (List Value) :=
  (path.nodes limits root).map (·.map Node.value)

/-- The first value that the path leads to. -/
def get (path : Path) (limits : Limits) (root : Value) : Except Error Value :=
  match searchFirst path.segments (limits.maxDepth + 1) root with
  | .found node => .ok node.value
  | .absent => .error (.notFound path.text)
  | .gaveUp => .error (.tooDeep limits.maxDepth)

/-- How many values the path leads to; none if the walk gives up. -/
def count (path : Path) (limits : Limits) (root : Value) : Nat :=
  match path.getAll limits root with
  | .ok values => values.length
  | .error _ => 0

/-- Whether the path leads to any value. -/
def exists? (path : Path) (limits : Limits) (root : Value) : Bool := 0 < path.count limits root

/-- The values that the path leads to and for which the predicate holds; the predicate has to be
given. -/
def filter (path : Path) (limits : Limits) (root : Value) (predicate : Option (Value → Bool)) :
    Except Error (List Value) :=
  match predicate with
  | none => .error .absentPredicate
  | some holds => (path.getAll limits root).map (·.filter holds)

end Path

end JsonDoc
