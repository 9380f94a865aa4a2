import JsonDoc.Query.Basic

/-!
# `JsonDoc.Query.Batch`: many questions at once

A batch asks for, or assigns, many paths one after the other. No failure stops it: every path
has a result of its own, in the order in which they were given.
-/

set_option autoImplicit false

namespace JsonDoc.Query

/-- The first value that each path leads to, beside the path. -/
def getBatch (root : Option Value) (texts : List String) :
    StateM Cache (List (String × Except Error Value)) :=
  texts.mapM fun text => do pure (text, ← (get root text).run)

/-- Assigns each value at its path, in order, so that later assignments see what earlier ones
did; the outcomes beside the paths, and the document after all of them. -/
def setBatch (root : Option Value) (entries : List (String × Value)) :
    StateM Cache (Option Value × List (String × Except Error Unit)) :=
  match entries with
  | [] => pure (root, [])
  | (text, new) :: rest => do
    let edited ← set root text new
    let (root, outcomes) ← setBatch edited.value rest
    pure (root, (text, edited.outcome) :: outcomes)

end JsonDoc.Query
