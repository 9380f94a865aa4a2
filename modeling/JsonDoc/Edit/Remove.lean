import JsonDoc.Edit.Basic

/-!
# `JsonDoc.Edit.Remove`: removing along a path

`Path.delete` removes every node that a path leads to from the container that holds it. A
descent removes at a node first, and then goes on to the children that are left; it spends the
budget of steps as it does when nodes are selected.
-/

set_option autoImplicit false

namespace JsonDoc

/-- The children removed by the last segment of a path, and how many they are. -/
def removeHere (segment : Segment) (v : Value) : Value × Nat :=
  match segment, v with
  | .property name, .object members =>
    if Members.has members name then (.object (Members.erase members name), 1) else (v, 0)
  | .index i, .array items =>
    match resolveIndex items.length i with
    | some place => if place < items.length then (.array (items.eraseIdx place), 1) else (v, 0)
    | none => (v, 0)
  | .wildcard, .array items => (.array [], items.length)
  | .wildcard, .object members => (.object [], members.length)
  | .filter condition, .array items =>
    let kept := items.filter fun item => !condition.holds item
    (.array kept, items.length - kept.length)
  | .filter condition, .object members =>
    let kept := Members.filterValues members fun item => !condition.holds item
    (.object kept, members.length - kept.length)
  | _, _ => (v, 0)

/-- Removes in the member `name`, if it is there. -/
def removeInMember (remove : Value → Edited Value Nat) (name : String) (v : Value) :
    Edited Value Nat :=
  match v with
  | .object members =>
    match Members.get? members name with
    | some child =>
      let edited := remove child
      ⟨.object (Members.put members name edited.value), edited.outcome⟩
    | none => ⟨v, .ok 0⟩
  | _ => ⟨v, .ok 0⟩

/-- Removes in the item at index `i`, if it is there. -/
def removeInItem (remove : Value → Edited Value Nat) (i : Int) (v : Value) : Edited Value Nat :=
  match v with
  | .array items =>
    match resolveIndex items.length i with
    | some place =>
      match items[place]? with
      | some child =>
        let edited := remove child
        ⟨.array (items.set place edited.value), edited.outcome⟩
      | none => ⟨v, .ok 0⟩
    | none => ⟨v, .ok 0⟩
  | _ => ⟨v, .ok 0⟩

/-- Removes at a node and then at everything left below it. -/
def removeBelow (limit : Nat) (remove : Nat → Value → Edited Value Nat) :
    (budget : Nat) → Value → Edited Value Nat
  | 0, v => ⟨v, .error (.tooDeep limit)⟩
  | budget + 1, v =>
    match remove (budget + 1) v with
    | ⟨v, .error e⟩ => ⟨v, .error e⟩
    | ⟨v, .ok n⟩ =>
      -- The children are those that the removal at the node has left.
      let edited := editChildren (removeBelow limit remove budget) v
      ⟨edited.value, countMore n edited.outcome⟩

/-- Removes every node that the segments lead to, and counts them. -/
def remove (limit : Nat) : List Segment → (budget : Nat) → Value → Edited Value Nat
  | [], _, v => ⟨v, .ok 0⟩
  | segment :: rest, budget, v =>
    if rest.isEmpty then
      let (left, count) := removeHere segment v
      ⟨left, .ok count⟩
    else
      match segment with
      | .property name => removeInMember (remove limit rest budget) name v
      | .index i => removeInItem (remove limit rest budget) i v
      | .wildcard => editChildren (remove limit rest budget) v
      | .filter condition => editChildren (editIf condition.holds (remove limit rest budget)) v
      | .descent => removeBelow limit (remove limit rest) budget v

/-- Removes every node that the path leads to. The root itself cannot be removed. -/
def Path.delete (path : Path) (limits : Limits) (root : Value) : Edited Value Unit :=
  match path.segments with
  | [] => ⟨root, .error .rootMutation⟩
  | segments => (remove limits.maxDepth segments (limits.maxDepth + 1) root).finish path

end JsonDoc
