import JsonDoc.Error
import JsonDoc.Members

/-!
# `JsonDoc.Object`: changing objects

The calls that change one member of an object, with what they give back: putting in a value gives
the one that it takes the place of, and deleting a key gives its value. A key that is not there
cannot be deleted; the object stays as it is.
-/

set_option autoImplicit false

namespace JsonDoc.Object

/-- The value that was at `key`, and the object with `value` there. -/
def set (members : Members Value) (key : String) (value : Value) : Option Value × Members Value :=
  (Members.get? members key, Members.put members key value)

/-- The object with what `f` makes of the value at `key`; a key that is not there stays absent. -/
def change (members : Members Value) (key : String) (f : Value → Value) : Members Value :=
  match Members.get? members key with
  | some old => Members.put members key (f old)
  | none => members

/-- The value that was at `key`, and the object without that key. -/
def delete (members : Members Value) (key : String) : Except Error Value × Members Value :=
  match Members.get? members key with
  | some old => (.ok old, Members.erase members key)
  | none => (.error (.notFound key), members)

end JsonDoc.Object
