import JsonDoc.Path.Select

/-!
# `JsonDoc.Edit.Basic`: edits of a document

An edit gives the document as it leaves it, beside its outcome: an edit that fails may have
changed part of the document already. Inside an edit the outcome is the number of nodes assigned
or removed.

`editEach` edits the values of a list one after the other and stops at the first failure, and
`editChildren` does so with the children of a container.
-/

set_option autoImplicit false

namespace JsonDoc

/-- What an edit leaves, and what came of it. -/
structure Edited (α ρ : Type) where
  value : α
  outcome : Except Error ρ

/-- At least one node was assigned or removed. -/
def Edited.any {α : Type} (edited : Edited α Nat) : Bool :=
  match edited.outcome with
  | .ok n => 0 < n
  | .error _ => false

/-- The outcome with `n` more nodes. -/
def countMore (n : Nat) (outcome : Except Error Nat) : Except Error Nat := outcome.map (n + ·)

/-- Edits the values of a list one after the other, up to the first failure, and counts the
nodes; `done` are the values already edited, last first, and `count` the nodes counted. -/
def editEach (edit : Value → Edited Value Nat) (done : List Value) (count : Nat) :
    List Value → Edited (List Value) Nat
  | [] => ⟨done.reverse, .ok count⟩
  | v :: rest =>
    match edit v with
    | ⟨v, .ok n⟩ => editEach edit (v :: done) (count + n) rest
    | ⟨v, .error e⟩ => ⟨done.reverseAux (v :: rest), .error e⟩

/-- Edits the children of a value one after the other, up to the first failure. -/
def editChildren (edit : Value → Edited Value Nat) (v : Value) : Edited Value Nat :=
  let edited := editEach edit [] 0 v.children
  ⟨v.withChildren edited.value, edited.outcome⟩

/-- The edit of the values that satisfy `choose`; the others are left as they are. -/
def editIf (choose : Value → Bool) (edit : Value → Edited Value Nat) (v : Value) :
    Edited Value Nat :=
  if choose v then edit v else ⟨v, .ok 0⟩

/-- The edit as a whole: it has to reach a node. -/
def Edited.finish (edited : Edited Value Nat) (path : Path) : Edited Value Unit :=
  match edited.outcome with
  | .ok 0 => ⟨edited.value, .error (.notFound path.text)⟩
  | .ok _ => ⟨edited.value, .ok ()⟩
  | .error e => ⟨edited.value, .error e⟩

/-- The accumulators can be split off: what was edited before stands in front, and its count is
added to that of the run from empty accumulators. -/
theorem editEach_eq (edit : Value → Edited Value Nat) (done : List Value) (count : Nat)
    (vs : List Value) :
    editEach edit done count vs =
      ⟨done.reverse ++ (editEach edit [] 0 vs).value,
        countMore count (editEach edit [] 0 vs).outcome⟩ := by
  induction vs generalizing done count with
  | nil => simp [editEach, countMore, Except.map]
  | cons v rest ih =>
    rcases h : edit v with ⟨left, _ | n⟩
    · simp [editEach, h, countMore, Except.map, List.reverseAux_eq]
    · simp only [editEach, h]
      rw [ih (left :: done), ih [left]]
      cases (editEach edit [] 0 rest).outcome <;> simp [countMore, Except.map, Nat.add_assoc]

end JsonDoc
