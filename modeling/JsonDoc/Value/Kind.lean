/-!
# `JsonDoc.Value.Kind`: the kinds of values

The six kinds of values of a document and their names.
-/

set_option autoImplicit false

namespace JsonDoc

/-- The kind of a value. -/
inductive Kind where
  | null
  | bool
  | number
  | string
  | array
  | object
  deriving DecidableEq, Repr

/-- The name of a kind in messages. -/
def Kind.name : Kind → String
  | .null => "null"
  | .bool => "bool"
  | .number => "number"
  | .string => "string"
  | .array => "array"
  | .object => "object"

end JsonDoc
