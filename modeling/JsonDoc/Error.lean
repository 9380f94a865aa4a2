import JsonDoc.Path.Fault
import JsonDoc.Path.Printer
import JsonDoc.Record.Fault
import JsonDoc.Value.Items
import JsonDoc.Value.Scalar

/-!
# `JsonDoc.Error`: what can go wrong

The causes for which an operation on documents and paths fails, each with what its message
needs. `Error.message` is the only place where they are put into words.
-/

set_option autoImplicit false

namespace JsonDoc

/-- Why an operation failed. -/
inductive Error where
  /-- The text of a path cannot be read. -/
  | malformedPath (fault : Path.Fault)
  /-- Nothing is there under the path or key. -/
  | notFound (name : String)
  /-- A value cannot be read as the type wanted. -/
  | conversion (cause : Conversion)
  /-- A segment does not apply to a value of that kind. -/
  | typeMismatch (segment : Segment) (found : Kind)
  /-- An index outside an array. -/
  | outOfBounds (cause : OutOfBounds)
  /-- The root can be neither replaced nor deleted. -/
  | rootMutation
  /-- There is no document. -/
  | absentRoot
  /-- There is no predicate. -/
  | absentPredicate
  /-- A segment that cannot be used to assign. -/
  | unsupportedMutation (segment : Segment)
  /-- Containers are nested deeper than the limit. -/
  | tooDeep (limit : Nat)
  /-- A JSON text cannot be read. -/
  | malformedText (fault : Json.Fault)
  /-- A record cannot be encoded. -/
  | unencodable (fault : Record.EncodeFault)
  /-- A value does not fit a record. -/
  | undecodable (fault : Record.Fault)
  deriving DecidableEq, Repr

/-- The kind of value that a segment applies to. -/
def Segment.expectedKind : Segment → String
  | property _ => "object"
  | index _ => "array"
  | _ => "array or object"

/-- The error in words. -/
def Error.message : Error → String
  | malformedPath fault => fault.message
  | notFound name => "\"" ++ name ++ "\" not found"
  | conversion cause => "cannot convert " ++ cause.found.name ++ " value to " ++ cause.wanted.name
  | typeMismatch segment found =>
    "segment " ++ String.ofList segment.text ++ " cannot be applied to " ++ found.name ++
      " value, expected " ++ segment.expectedKind
  | outOfBounds cause =>
    "array index " ++ toString cause.index ++ " is out of bounds for length " ++
      toString cause.length
  | rootMutation => "cannot replace or delete the root node"
  | absentRoot => "document root is nil"
  | absentPredicate => "predicate cannot be nil"
  | unsupportedMutation segment =>
    "segment " ++ String.ofList segment.text ++ " cannot be used to set a value"
  | tooDeep limit => "maximum depth of " ++ toString limit ++ " exceeded"
  | malformedText fault => "invalid JSON text: " ++ fault.message
  | unencodable fault => "failed to serialize value: " ++ fault.message
  | undecodable fault => "failed to decode value: " ++ fault.message

end JsonDoc
