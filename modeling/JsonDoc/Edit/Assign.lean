import JsonDoc.Edit.Basic

/-!
# `JsonDoc.Edit.Assign`: assigning along a path

`Path.set` assigns a value at every node that a path leads to. On its way it makes what is
missing: a null becomes the container that the next segment applies to, an absent member is
created, and an array is lengthened with nulls up to the item addressed. Nothing is made where
the way goes on with a segment that only leads to existing children.

What was made is undone at the level where it was made, if nothing was assigned below it. So a
failed assignment leaves nothing behind but what a wildcard or filter had already assigned in
earlier children.
-/

set_option autoImplicit false

namespace JsonDoc

/-- The failure to apply a segment to a value of another kind. -/
def mismatch (segment : Segment) (v : Value) : Error := .typeMismatch segment v.kind

/-- The container that a null becomes ahead of the segment. -/
def containerFor : Segment → Value
  | .property _ => .object []
  | .index _ => .array []
  | _ => .null

/-- A missing node may be created ahead of these segments: the way ends there, or it goes on to
a member or an item. -/
def mayCreate : List Segment → Bool
  | [] => true
  | .property _ :: _ => true
  | .index _ :: _ => true
  | _ => false

/-- Assigns in the member `name`, which is created if `create` allows it and kept if something
was assigned. -/
def assignMember (assign : Value → Edited Value Nat) (create : Bool) (name : String) (v : Value) :
    Edited Value Nat :=
  match v with
  | .object members =>
    match Members.get? members name with
    | some child =>
      let edited := assign child
      ⟨.object (Members.put members name edited.value), edited.outcome⟩
    | none =>
      if create then
        let edited := assign .null
        ⟨if edited.any then .object (Members.put members name edited.value) else v,
          edited.outcome⟩
      else ⟨v, .ok 0⟩
  | _ => ⟨v, .error (mismatch (.property name) v)⟩

/-- Assigns in the item at index `i`. An array that is too short is lengthened if `create` allows
it, as far as the limits go, and stays so if something was assigned. -/
def assignItem (assign : Value → Edited Value Nat) (create : Bool) (limits : Limits) (i : Int)
    (v : Value) : Edited Value Nat :=
  match v with
  | .array items =>
    let outside : Error := .outOfBounds ⟨i, items.length⟩
    match resolveIndex items.length i with
    | none => ⟨v, .error outside⟩
    | some place =>
      match items[place]? with
      | some child =>
        let edited := assign child
        ⟨.array (items.set place edited.value), edited.outcome⟩
      | none =>
        -- A place without an item lies beyond the end.
        if !create then ⟨v, .ok 0⟩
        else if limits.refuses items.length place then ⟨v, .error outside⟩
        else
          let missing := place - items.length
          let edited := assign .null
          ⟨if edited.any then .array (items ++ List.replicate missing .null ++ [edited.value])
            else v, edited.outcome⟩
  | _ => ⟨v, .error (mismatch (.index i) v)⟩

/-- Assigns in the children that satisfy `choose`. -/
def assignChildren (assign : Value → Edited Value Nat) (segment : Segment) (choose : Value → Bool)
    (v : Value) : Edited Value Nat :=
  match v with
  | .null => ⟨v, .ok 0⟩
  | .array _ => editChildren (editIf choose assign) v
  | .object _ => editChildren (editIf choose assign) v
  | _ => ⟨v, .error (mismatch segment v)⟩

/-- Assigns in a value that is not null, or that no container can stand in for. -/
def assignStep (assign : Value → Edited Value Nat) (create : Bool) (limits : Limits)
    (segment : Segment) (v : Value) : Edited Value Nat :=
  match segment with
  | .property name => assignMember assign create name v
  | .index i => assignItem assign create limits i v
  | .wildcard => assignChildren assign segment (fun _ => true) v
  | .filter condition => assignChildren assign segment condition.holds v
  | .descent => ⟨v, .error (.unsupportedMutation segment)⟩

/-- Assigns `new` at every node that the segments lead to, and counts them. -/
def assign (limits : Limits) (new : Value) : List Segment → Value → Edited Value Nat
  | [], _ => ⟨new, .ok 1⟩
  | segment :: rest, v =>
    let step := assignStep (assign limits new rest) (mayCreate rest) limits segment
    match v with
    | .null =>
      -- The container goes again if nothing was assigned in it.
      let edited := step (containerFor segment)
      if edited.any then edited else ⟨.null, edited.outcome⟩
    | v => step v

/-- Assigns `new` at every node that the path leads to. The root itself stays what it is: it
cannot be assigned, and a null in its place is not replaced by a container. -/
def Path.set (path : Path) (limits : Limits) (root new : Value) : Edited Value Unit :=
  match path.segments with
  | [] => ⟨root, .error .rootMutation⟩
  | segment :: rest =>
    match root with
    | .null => ⟨root, .error (mismatch segment root)⟩
    | root => (assign limits new (segment :: rest) root).finish path

end JsonDoc
