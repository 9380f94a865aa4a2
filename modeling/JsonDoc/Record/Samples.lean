import JsonDoc.Record.Encode

/-!
# `JsonDoc.Record.Samples`: two sample records

A `Book` has fields of several types, the last of which may be missing; an `Extra` has one field
that holds any document. Both are read from an object, whose other members are ignored, or from
an array of their fields in order, and written as an object.
-/

set_option autoImplicit false

namespace JsonDoc.Record

open Number

/-- A book of a store. -/
structure Book where
  title : String
  price : Binary64
  stock : UInt32
  tags : List String
  isbn : Option String

/-- The fields of a book read so far. -/
structure Book.Fields where
  title : Option String := none
  price : Option Binary64 := none
  stock : Option UInt32 := none
  tags : Option (List String) := none
  isbn : Option String := none

/-- The fields with the member read into the one of its name. -/
def Book.Fields.read (fields : Book.Fields) (member : String × Json) :
    Except Fault Book.Fields := do
  match member.1 with
  | "title" => pure { fields with title := some (← decode member.2) }
  | "price" => pure { fields with price := some (← decode member.2) }
  | "stock" => pure { fields with stock := some (← decode member.2) }
  | "tags" => pure { fields with tags := some (← decode member.2) }
  | "isbn" => pure { fields with isbn := ← decode member.2 }
  | _ => pure fields

/-- What an array of too few fields should have been. -/
def Book.fiveElements : String := "struct Book with 5 elements"

instance : Decodable Book where
  decode
    | .object members => do
      let fields ← members.foldlM Book.Fields.read {}
      pure {
        title := ← required "title" fields.title
        price := ← required "price" fields.price
        stock := ← required "stock" fields.stock
        tags := ← required "tags" fields.tags
        isbn := fields.isbn }
    | .array items => do
      let (title, rest) ← element Book.fiveElements 0 items
      let (price, rest) ← element Book.fiveElements 1 rest
      let (stock, rest) ← element Book.fiveElements 2 rest
      let (tags, rest) ← element Book.fiveElements 3 rest
      let (isbn, rest) ← element Book.fiveElements 4 rest
      finish items.length rest ⟨title, price, stock, tags, isbn⟩
    | json => unfit json "struct Book"

instance : Encodable Book where
  encode book :=
    .map [(.text "title", encode book.title), (.text "price", encode book.price),
      (.text "stock", encode book.stock), (.text "tags", encode book.tags),
      (.text "isbn", encode book.isbn)]

/-- A number and any document under it. -/
structure Extra where
  id : Int64
  rest : Value

/-- The fields of an extra read so far. -/
structure Extra.Fields where
  id : Option Int64 := none
  rest : Option Value := none

/-- The fields with the member read into the one of its name. -/
def Extra.Fields.read (fields : Extra.Fields) (member : String × Json) :
    Except Fault Extra.Fields := do
  match member.1 with
  | "id" => pure { fields with id := some (← decode member.2) }
  | "rest" => pure { fields with rest := some (← decode member.2) }
  | _ => pure fields

/-- What an array of too few fields should have been. -/
def Extra.twoElements : String := "struct Extra with 2 elements"

instance : Decodable Extra where
  decode
    | .object members => do
      let fields ← members.foldlM Extra.Fields.read {}
      pure { id := ← required "id" fields.id, rest := ← required "rest" fields.rest }
    | .array items => do
      let (id, rest) ← element Extra.twoElements 0 items
      let (value, rest) ← element Extra.twoElements 1 rest
      finish items.length rest ⟨id, value⟩
    | json => unfit json "struct Extra"

instance : Encodable Extra where
  encode extra := .map [(.text "id", encode extra.id), (.text "rest", encode extra.rest)]

end JsonDoc.Record
