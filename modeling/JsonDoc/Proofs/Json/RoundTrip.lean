import JsonDoc.Proofs.Json.Built
import JsonDoc.Proofs.Json.Reading
import JsonDoc.Proofs.Json.Sorting
import JsonDoc.Proofs.Json.Writing

/-!
# `JsonDoc.Proofs.Json.RoundTrip`: documents are read as they were written

Where all numbers are integers that are written in digits, a document that is written and read again
is the same but for the order of members and the signs of zeros, whatever the choices for writing
(`Value.parse_serialize`). It goes by way of the grammar: what is written is a text of it, also
after the escapes for HTML, and every text of the grammar is read.
-/

set_option autoImplicit false

namespace JsonDoc

open Number

namespace Value

section
variable {v : Value} {options : WriteOptions}

/-- The document with its members in the order that the choices ask for. -/
def ordered (options : WriteOptions) (v : Value) : Value := if options.sortKeys then v.sorted else v

/-- Sorting the members or leaving them works node by node. -/
theorem pointwise_ordered (options : WriteOptions) : Pointwise (ordered options) := by
  cases hsort : options.sortKeys with
  | false =>
    have heq : ordered options = id := funext fun v => by rw [ordered, hsort]; rfl
    rw [heq]
    exact pointwise_id
  | true =>
    have heq : ordered options = sorted := funext fun v => by rw [ordered, hsort]; rfl
    rw [heq]
    exact pointwise_sorted

/-- The order of members makes no difference to the head of a value. -/
theorem sameHead_ordered (v : Value) : SameHead Eq (ordered options v) v := by
  rw [ordered]
  cases options.sortKeys <;> cases v <;> first | rfl | trivial

/-- It changes nothing but the order of members. -/
theorem reordered_ordered (hv : v.WellFormed) : Reordered (ordered options v) v :=
  (pointwise_ordered options).alike hv fun _ node _ => sameHead_ordered node

/-- Which numbers are in a document does not depend on the order of members. -/
theorem SafeIntegers.of_reordered {w : Value} (hv : v.SafeIntegers) (h : Reordered w v) :
    w.SafeIntegers := by
  intro location x hx
  obtain ⟨node, hnode, hhead⟩ := exists_of_rel_some (h location) hx
  cases node with
  | number y =>
    cases hhead
    exact hv location x hnode
  | _ => exact hhead.elim

/-- Signs of zeros make no difference to `==`. -/
theorem alike_plainZeros (hv : v.WellFormed) (hsafe : v.SafeIntegers) :
    Alike (fun x y => x.equals y = true) v.plainZeros v := by
  refine pointwise_plainZeros.alike hv fun location node hnode => ?_
  cases node with
  | number x =>
    obtain ⟨n, hn, -⟩ := hsafe location x hnode
    exact Binary64.equals_plainZero hn
  | bool | string => rfl
  | _ => trivial

/-! ### Writing and reading -/

/-- With an indent of white space every layout adds white space only. -/
theorem layout_blank (h : Json.Grammar.Spaces options.indent.toList) : options.layout.Blank := by
  rw [WriteOptions.layout]
  split
  · trivial
  · exact h

/-- What is written is a text of the document, with its members in order and its zeros plain. -/
theorem exists_serialize (hv : v.WellFormed) (hsafe : v.SafeIntegers)
    (hdepth : v.depth ≤ options.maxDepth)
    (hindent : Json.Grammar.Spaces options.indent.toList) :
    ∃ cs, v.serialize options = .ok (String.ofList cs) ∧
      Json.Grammar.ValueText v.depth cs (ordered options v).plainZeros := by
  have hordered := pointwise_ordered options
  obtain ⟨cs, hcs, hwrite⟩ : Json.Grammar.Appends (write options.layout 0 · (ordered options v))
      (Json.Grammar.ValueText v.depth · (ordered options v).plainZeros) :=
    Json.Grammar.appends_write (layout_blank hindent) (hordered.depth_le hv)
      (hordered.wellFormed hv) (hsafe.of_reordered (reordered_ordered hv))
  have htext : (ordered options v).write options.layout 0 "" = String.ofList cs :=
    (hwrite "").trans String.empty_append
  have hserialize : v.serialize options =
      .ok (if options.htmlEscape then escapeHtml (String.ofList cs) else String.ofList cs) := by
    rw [serialize, if_neg (Nat.not_lt.2 hdepth), ← htext]
    rfl
  -- The escapes are a pass over the finished text, which is of the grammar before and after.
  cases hescape : options.htmlEscape with
  | false =>
    rw [hescape] at hserialize
    exact ⟨cs, hserialize, hcs⟩
  | true =>
    rw [hescape, if_pos rfl, escapeHtml, String.toList_ofList] at hserialize
    exact ⟨_, hserialize, hcs.escapeHtml⟩

/-! ### The order of members -/

/-- Zeros without signs leave the keys of an object. -/
theorem keys_of_plainZeros_eq {members others : List (String × Value)}
    (h : (object members).plainZeros = object others) :
    Members.keys others = Members.keys members := by
  cases h
  exact keys_plainZeroMembers members

end

/-- A document that is written is read as the same document, with the members of every object in the
order that they had or in that of their keys. -/
theorem parse_serialize {v : Value} {options : WriteOptions} {limit : Nat} (hv : v.WellFormed)
    (hsafe : v.SafeIntegers) (hlimit : v.depth ≤ min limit Json.nestingLimit)
    (hdepth : v.depth ≤ options.maxDepth)
    (hindent : Json.Grammar.Spaces options.indent.toList) :
    ∃ text w, v.serialize options = .ok text ∧ Value.parse limit (bytesOf text) = .ok w ∧
      (w == v) = true ∧
      (options.sortKeys = false → ∀ location members, v.at? location = some (.object members) →
        ∃ others, w.at? location = some (.object others) ∧
          Members.keys others = Members.keys members) ∧
      (options.sortKeys = true → ∀ location others, w.at? location = some (.object others) →
        (Members.keys others).Pairwise (· < ·)) := by
  obtain ⟨hroom, hnesting⟩ := Nat.le_min.1 hlimit
  obtain ⟨cs, hserialize, hcs⟩ := exists_serialize hv hsafe hdepth hindent
  have hparse := Value.parse_of_valueText hcs hroom hnesting
  have hordered := (pointwise_ordered options).wellFormed hv
  have hreordered : Reordered (ordered options v) v := reordered_ordered hv
  have hat := pointwise_plainZeros.at? hordered
  refine ⟨_, _, hserialize, hparse, ?_, fun hsort location members hmembers => ?_,
    fun hsort location others hothers => ?_⟩
  · -- What is read is `v` reordered, with zeros that lost their sign; neither is seen by `==`.
    refine (beq_iff_alike (wellFormed_of_parse hparse) hv).2 ?_
    refine (alike_plainZeros hordered (hsafe.of_reordered hreordered)).trans ?_ hreordered
    rintro x y _ hxy rfl
    exact hxy
  · have hkept : ordered options v = v := by rw [ordered, hsort]; rfl
    rw [hkept] at hat ⊢
    exact ⟨_, by rw [hat, hmembers]; rfl, keys_plainZeroMembers members⟩
  · -- The object that is read at a place comes from a sorted one, and that from one of `v`.
    have hsorted : ordered options v = v.sorted := by rw [ordered, hsort]; rfl
    rw [hat, hsorted, pointwise_sorted.at? hv] at hothers
    obtain ⟨inOrder, hinOrder, hplain⟩ := Option.map_eq_some_iff.1 hothers
    obtain ⟨node, hnode, rfl⟩ := Option.map_eq_some_iff.1 hinOrder
    obtain ⟨members, hmembers⟩ := pointwise_plainZeros.exists_object hplain
    obtain ⟨old, rfl⟩ := pointwise_sorted.exists_object hmembers
    rw [hmembers] at hplain
    rw [keys_of_plainZeros_eq hplain]
    exact (hv.of_at? hnode).pairwise_keys_of_sorted_eq hmembers

/-- A negative zero, keys out of order and a character that is escaped, on lines of their own. -/
theorem parse_serialize_escaped :
    let v : Value :=
      .object [("b", .array [.number Binary64.zero.neg]), ("a", .string "<")]
    let options : WriteOptions := ⟨false, "\t", true, 2, true⟩
    ∃ text w, v.serialize options = .ok text ∧ Value.parse 2 (bytesOf text) = .ok w ∧
      (w == v) = true ∧ ∀ others, w = .object others → (Members.keys others).Pairwise (· < ·) := by
  intro v options
  have hv : v.WellFormed := by simp [v, Members.keys]
  have hzero : (Value.number Binary64.zero.neg).SafeIntegers := by
    refine safeIntegers_of_children (fun x hx => ?_) (by simp [children])
    cases hx
    exact ⟨0, by decide +kernel, Nat.zero_le _⟩
  have hstring : (Value.string "<").SafeIntegers :=
    safeIntegers_of_children (by simp) (by simp [children])
  have hsafe : v.SafeIntegers := by
    refine safeIntegers_of_children (by simp [v]) ?_
    simpa [v, children, Members.values] using
      ⟨safeIntegers_of_children (by simp) (by simpa [children] using hzero), hstring⟩
  have hlimit : v.depth ≤ min 2 Json.nestingLimit := by decide
  have hindent : Json.Grammar.Spaces options.indent.toList := by
    intro c mem
    exact .inr (.inr (.inr (by simpa [options] using mem)))
  obtain ⟨text, w, hserialize, hparse, hequal, -, hkeys⟩ :=
    parse_serialize hv hsafe hlimit (show v.depth ≤ options.maxDepth by decide) hindent
  refine ⟨text, w, hserialize, hparse, hequal, fun others hothers => ?_⟩
  exact hkeys rfl [] others (congrArg some hothers)

end Value

end JsonDoc
