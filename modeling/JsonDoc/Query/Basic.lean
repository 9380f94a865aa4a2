import JsonDoc.Cache
import JsonDoc.Edit.Assign
import JsonDoc.Edit.Remove

/-!
# `JsonDoc.Query.Basic`: questions to a document by the text of a path

These operations take a path as text, compile it through a cache, and evaluate it within the
usual limits. The document may be absent, which is an error before the path is looked at. The
operations whose name starts with `must` never fail: they have a default for every failure.
-/

set_option autoImplicit false

namespace JsonDoc

/-- A computation that uses a path cache and may fail. -/
abbrev Query := ExceptT Error (StateM Cache)

namespace Query

/-- The document, which has to be there. -/
def present (root : Option Value) : Query Value :=
  match root with
  | some root => pure root
  | none => throw .absentRoot

/-- The path that a text stands for. -/
def compile (text : String) : Query Path := do
  match ← (Cache.compile text : StateM Cache _) with
  | .ok shared => pure shared.path
  | .error fault => throw (.malformedPath fault)

/-- The first value that the path leads to. -/
def get (root : Option Value) (text : String) : Query Value := do
  let root ← present root
  let path ← compile text
  MonadExcept.ofExcept (path.get {} root)

/-- The values that the path leads to, in pre-order. -/
def getAll (root : Option Value) (text : String) : Query (List Value) := do
  let root ← present root
  let path ← compile text
  MonadExcept.ofExcept (path.getAll {} root)

/-- The values that the path leads to and for which the predicate holds. -/
def filter (root : Option Value) (text : String) (predicate : Option (Value → Bool)) :
    Query (List Value) := do
  let root ← present root
  -- An absent predicate is noticed before the path is compiled.
  match predicate with
  | none => throw .absentPredicate
  | some holds =>
    let path ← compile text
    MonadExcept.ofExcept (path.filter {} root (some holds))

/-- The result of a query, or the default where it fails. -/
def orElse {α : Type} (query : Query α) (default : α) : StateM Cache α := do
  match ← query.run with
  | .ok a => pure a
  | .error _ => pure default

/-- How many values the path leads to; none where the query fails. -/
def count (root : Option Value) (text : String) : StateM Cache Nat :=
  List.length <$> orElse (getAll root text) []

/-- Whether the path leads to any value. -/
def exists? (root : Option Value) (text : String) : StateM Cache Bool :=
  (fun n => decide (0 < n)) <$> count root text

/-- The values for which the predicate holds, or none. -/
def mustFilter (root : Option Value) (text : String) (predicate : Option (Value → Bool)) :
    StateM Cache (List Value) :=
  orElse (filter root text predicate) []

/-- The values that the path leads to, or none. -/
def mustGetAll (root : Option Value) (text : String) : StateM Cache (List Value) :=
  orElse (getAll root text) []

/-- The first value that the path leads to, or null. -/
def mustGet (root : Option Value) (text : String) : StateM Cache Value :=
  orElse (get root text) .null

/-- The first value, read as a type of scalars, or a default. -/
def mustRead {α : Type} (read : Value → Except Conversion α) (default : α) (root : Option Value)
    (text : String) : StateM Cache α := do
  match ← (get root text).run with
  | .ok v => pure ((read v).toOption.getD default)
  | .error _ => pure default

/-- The string that the path leads to, or the empty one. -/
def mustGetString : Option Value → String → StateM Cache String := mustRead Value.asString ""

/-- The boolean that the path leads to, or false. -/
def mustGetBool : Option Value → String → StateM Cache Bool := mustRead Value.asBool false

/-- The 64-bit integer that the path leads to, or zero. -/
def mustGetInt64 : Option Value → String → StateM Cache Int := mustRead Value.asInt64 0

/-- The number that the path leads to, or zero. -/
def mustGetFloat : Option Value → String → StateM Cache Number.Binary64 :=
  mustRead Value.asFloat .zero

/-- The members of the object that the path leads to, or none. -/
def mustGetObject (root : Option Value) (text : String) : StateM Cache (Members Value) := do
  pure ((← mustGet root text).object?.getD [])

/-- The items of the array that the path leads to, or none. -/
def mustGetArray (root : Option Value) (text : String) : StateM Cache (List Value) := do
  pure ((← mustGet root text).array?.getD [])

/-- An edit of the document at the path, which has to be there and to be compiled. -/
def edit (change : Path → Value → Edited Value Unit) (root : Option Value) (text : String) :
    StateM Cache (Edited (Option Value) Unit) := do
  match root with
  | none => pure ⟨none, .error .absentRoot⟩
  | some root =>
    match ← (compile text).run with
    | .error e => pure ⟨some root, .error e⟩
    | .ok path =>
      let edited := change path root
      pure ⟨some edited.value, edited.outcome⟩

/-- Assigns a value at every node that the path leads to. -/
def set (root : Option Value) (text : String) (new : Value) :
    StateM Cache (Edited (Option Value) Unit) :=
  edit (fun path root => path.set {} root new) root text

/-- Removes every node that the path leads to. -/
def delete (root : Option Value) (text : String) : StateM Cache (Edited (Option Value) Unit) :=
  edit (fun path root => path.delete {} root) root text

end Query

end JsonDoc
