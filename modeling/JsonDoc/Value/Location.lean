import JsonDoc.Value.Basic

/-!
# `JsonDoc.Value.Location`: places in a document

A location is the list of steps that lead from the root to a node, each to a member or to an
item. `Value.at?` is the node at a location, and `Value.childNodes` are the children of a node
with the steps that lead to them. `Value.withChildren` puts other values in the places of the
children.
-/

set_option autoImplicit false

namespace JsonDoc

/-- A step from a container to one of its children. -/
inductive Step where
  | key (name : String)
  | item (index : Nat)
  deriving DecidableEq, Repr

/-- The steps from the root to a node. -/
abbrev Location := List Step

/-- A value and where it stands. -/
structure Node where
  location : Location
  value : Value

/-- The node, seen from one step above. -/
def Node.under (step : Step) (node : Node) : Node := ⟨step :: node.location, node.value⟩

/-- The place of an index in an array of `length` items; negative indices count from the end. An
index that is not negative may lie beyond the end. -/
def resolveIndex (length : Nat) (i : Int) : Option Nat :=
  if 0 ≤ i then some i.toNat
  else if 0 ≤ length + i then some (length + i).toNat
  else none

namespace Value

/-- The child that a step leads to. -/
def child? (v : Value) (step : Step) : Option Value :=
  match v, step with
  | object members, .key name => Members.get? members name
  | array items, .item index => items[index]?
  | _, _ => none

/-- The node at a location. -/
def at? (v : Value) : Location → Option Value
  | [] => some v
  | step :: rest => (v.child? step).bind fun child => child.at? rest

/-- The children and the steps that lead to them, in their natural order. -/
def childNodes : Value → List (Step × Value)
  | array items => items.zipIdx.map fun (item, index) => (.item index, item)
  | object members => members.map fun (key, item) => (.key key, item)
  | _ => []

/-- The value with other children in the places of its own. -/
def withChildren : Value → List Value → Value
  | array _, items => array items
  | object members, items => object (List.zipWith (fun m item => (m.1, item)) members items)
  | v, _ => v

/-- The children without the steps to them are the children in their natural order. -/
theorem childNodes_map_snd (v : Value) : v.childNodes.map Prod.snd = v.children := by
  cases v with
  | array items =>
    simp only [childNodes, children, List.map_map, Function.comp_def]
    exact List.zipIdx_map_fst 0 items
  | object members => simp [childNodes, children, Members.values, Function.comp_def]
  | _ => rfl

end Value

end JsonDoc
