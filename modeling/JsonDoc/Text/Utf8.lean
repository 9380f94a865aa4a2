/-!
# `JsonDoc.Text.Utf8`: sizes and valid prefixes of UTF-8

`encodedLength` is the number of bytes of a text, the unit in which positions in a path are
counted. `validPrefixLength` is the number of bytes at the start of a byte string that are the
encoding of whole characters; it equals the size of the string exactly where the string is
valid.
-/

set_option autoImplicit false

namespace JsonDoc.Text

/-- The number of bytes in the UTF-8 encoding of `cs`. -/
def encodedLength (cs : List Char) : Nat := cs.foldl (fun n c => n + c.utf8Size) 0

/-- How far whole characters reach from byte `start` on, reading at most `count` of them. -/
def validFrom (bytes : ByteArray) : (count start : Nat) → Nat
  | 0, start => start
  | count + 1, start =>
    match bytes.utf8DecodeChar? start with
    | none => start
    | some c => validFrom bytes count (start + c.utf8Size)

/-- The length of the longest prefix of `bytes` that encodes whole characters. Each character
takes a byte or more, so there are no more of them than bytes. -/
def validPrefixLength (bytes : ByteArray) : Nat := validFrom bytes bytes.size 0

/-- The fold of `encodedLength` from any number on: the number is added at the end. -/
theorem encodedLength_foldl (cs : List Char) (n : Nat) :
    cs.foldl (fun n c => n + c.utf8Size) n = n + encodedLength cs := by
  induction cs generalizing n with
  | nil => rfl
  | cons c cs ih => rw [encodedLength, List.foldl_cons, List.foldl_cons, ih, ih (0 + _)]; omega

/-- The empty text takes up no bytes. -/
@[simp] theorem encodedLength_nil : encodedLength [] = 0 := rfl

/-- The first character and the rest take up their bytes one after the other. -/
@[simp] theorem encodedLength_cons (c : Char) (cs : List Char) :
    encodedLength (c :: cs) = c.utf8Size + encodedLength cs := by
  rw [encodedLength, List.foldl_cons, encodedLength_foldl, Nat.zero_add]

/-- Texts that stand one behind the other take up as many bytes as both together. -/
@[simp] theorem encodedLength_append (cs ds : List Char) :
    encodedLength (cs ++ ds) = encodedLength cs + encodedLength ds := by
  induction cs with
  | nil => simp
  | cons c cs ih => simp [ih, Nat.add_assoc]

end JsonDoc.Text
