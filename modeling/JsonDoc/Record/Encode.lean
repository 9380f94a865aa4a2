import JsonDoc.Record.Decode

/-!
# `JsonDoc.Record.Encode`: values from records

A type is `Encodable` if its values can be taken apart into a `Datum`. `Value.encode` makes a
document of one, by way of generic JSON.
-/

set_option autoImplicit false

namespace JsonDoc

open Number

/-- A type whose values can be taken apart. -/
class Encodable (α : Type) where
  encode : α → Datum

export Encodable (encode)

namespace Record

instance : Encodable Datum := ⟨id⟩
instance : Encodable Bool := ⟨.bool⟩
instance : Encodable Int64 := ⟨fun n => .integer n.toInt⟩
instance : Encodable UInt8 := ⟨fun n => .integer n.toNat⟩
instance : Encodable UInt32 := ⟨fun n => .integer n.toNat⟩
instance : Encodable UInt64 := ⟨fun n => .integer n.toNat⟩
instance : Encodable Binary64 := ⟨.float⟩
instance : Encodable Char := ⟨fun c => .text c.toString⟩
instance : Encodable String := ⟨.text⟩
instance : Encodable Unit := ⟨fun _ => .unit⟩
instance : Encodable Value := ⟨Value.datum⟩

instance {α : Type} [Encodable α] : Encodable (Option α) where
  encode
    | none => .absent
    | some a => .present (encode a)

instance {α : Type} [Encodable α] : Encodable (List α) :=
  ⟨fun items => .sequence (items.map encode)⟩

instance {α β : Type} [Encodable α] [Encodable β] : Encodable (α × β) :=
  ⟨fun pair => .sequence [encode pair.1, encode pair.2]⟩

instance {κ α : Type} [Encodable κ] [Encodable α] : Encodable (Sorted κ α) :=
  ⟨fun map => .map (map.entries.map fun entry => (encode entry.1, encode entry.2))⟩

end Record

/-- The document of a record. -/
def Value.encode {α : Type} [Encodable α] (a : α) : Except Error Value :=
  match (Encodable.encode a).toJson with
  | .ok json => .ok (.ofJson json)
  | .error fault => .error (.unencodable fault)

end JsonDoc
