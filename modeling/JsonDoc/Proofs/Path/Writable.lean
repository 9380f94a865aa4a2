import JsonDoc.Proofs.Path.Normal

/-!
# `JsonDoc.Proofs.Path.Writable`: which lists of segments have a text

Every list of segments has a normal text, also one that no text compiles to. `Writable` is the
condition under which the normal text compiles to the list that it was written for: descents lead
to a segment, indices have 64 bits, names in fields need no quotes, the texts of numbers are read
back, and conditions are not nested too deeply with the parentheses of the text counted. Property
names and strings may be any.

The condition is exact (`compile_textOf_iff`), and since a text compiles to one list at most,
writable lists with the same text are the same.
-/

set_option autoImplicit false

namespace JsonDoc.Path.Grammar

open Number Text

/-! ### Numbers -/

/-- The text of every number but negative infinity is a number of the grammar. -/
theorem numberText_text {x : Binary64} (h : x ≠ .infinite true) :
    NumberText (x.text plainStyle) x := by
  have hne : Literal.number x ≠ .number (.infinite true) := fun heq => h (Literal.number.inj heq)
  have hliteral : LiteralText (x.text plainStyle) (.number x) := Literal.literalText_text hne
  -- No other kind of literal has a number for its value, whatever the text is.
  generalize x.text plainStyle = cs at hliteral ⊢
  cases hliteral with
  | number hx => exact hx

/-- The text of every number but negative infinity is read back. -/
theorem readNumber?_text_iff {x : Binary64} :
    readNumber? (x.text plainStyle) = some (x, []) ↔ x ≠ .infinite true := by
  constructor
  · rintro h rfl
    cases h
  · intro h
    have hread := readNumber?_append (numberText_text h) (stops_nil _)
    rwa [List.append_nil] at hread

/-! ### The pieces of a list of segments -/

/-- The segments in pieces, where a descent stands with the segment after it. -/
def pieces : List Segment → List (List Segment)
  | [] => []
  | .descent :: next :: rest => [.descent, next] :: pieces rest
  | segment :: rest => [segment] :: pieces rest

/-- Cutting segments into pieces loses none of them. -/
theorem flatten_pieces (segments : List Segment) : (pieces segments).flatten = segments := by
  fun_induction pieces segments with
  | case1 => rfl
  | case2 next rest ih => rw [List.flatten_cons, ih]; rfl
  | case3 segment rest _ ih => rw [List.flatten_cons, ih]; rfl

/-- Every descent stands right before a segment that is none. -/
def DescentsLead (segments : List Segment) : Prop :=
  ∀ before after, segments = before ++ .descent :: after →
    ∃ next rest, after = next :: rest ∧ next ≠ .descent

section
variable {segments rest : List Segment} {segment next : Segment}

/-- What leads somewhere in a list does so without its first segment. -/
theorem DescentsLead.of_cons (h : DescentsLead (segment :: rest)) : DescentsLead rest := by
  rintro before after rfl
  exact h (segment :: before) after rfl

/-- A segment that is no descent may stand in front. -/
theorem DescentsLead.of_plain (hsegment : segment ≠ .descent) (h : DescentsLead rest) :
    DescentsLead (segment :: rest) := by
  intro before after heq
  cases before with
  | nil => exact absurd (List.cons.inj heq).1 hsegment
  | cons first before => exact h before after (List.cons.inj heq).2

/-- A descent may stand in front of a segment that is none. -/
theorem DescentsLead.of_descent (hnext : next ≠ .descent) (h : DescentsLead rest) :
    DescentsLead (.descent :: next :: rest) := by
  intro before after heq
  cases before with
  | nil => exact ⟨next, rest, (List.cons.inj heq).2.symm, hnext⟩
  | cons first before => exact h.of_plain hnext before after (List.cons.inj heq).2

/-- Where every descent leads to a segment, all pieces can be written. -/
theorem piece_of_mem_pieces (lead : DescentsLead segments)
    (h : ∀ segment ∈ segments, segment.Expressible) : ∀ piece ∈ pieces segments, Piece piece := by
  fun_induction pieces segments with
  | case1 => exact fun piece mem => absurd mem List.not_mem_nil
  | case2 next rest ih =>
    obtain ⟨next', rest', heq, hnext⟩ := lead [] (next :: rest) rfl
    obtain ⟨rfl, rfl⟩ := List.cons.inj heq
    obtain ⟨-, hexpressible, hrest⟩ : _ ∧ next.Expressible ∧ ∀ s ∈ rest, s.Expressible := by
      simpa using h
    exact List.forall_mem_cons.2 ⟨.descent hnext hexpressible, ih lead.of_cons.of_cons hrest⟩
  | case3 segment rest alone ih =>
    obtain ⟨hsegment, hrest⟩ := List.forall_mem_cons.1 h
    refine List.forall_mem_cons.2 ⟨.plain ?_ hsegment, ih lead.of_cons hrest⟩
    -- A descent here would be the last segment.
    rintro rfl
    obtain ⟨next, rest', rfl, -⟩ := lead [] rest rfl
    exact alone next rest' rfl rfl

/-- In a list put together from pieces every descent leads to a segment. -/
theorem descentsLead_flatten {pieces : List (List Segment)} (h : ∀ piece ∈ pieces, Piece piece) :
    DescentsLead pieces.flatten := by
  induction pieces with
  | nil =>
    intro before after heq
    cases before <;> cases heq
  | cons piece pieces ih =>
    obtain ⟨hpiece, hpieces⟩ := List.forall_mem_cons.1 h
    cases hpiece with
    | plain hsegment _ => exact (ih hpieces).of_plain hsegment
    | descent hnext _ => exact (ih hpieces).of_descent hnext

/-- All segments of pieces can be written. -/
theorem expressible_of_mem_flatten {pieces : List (List Segment)}
    (h : ∀ piece ∈ pieces, Piece piece) : ∀ segment ∈ pieces.flatten, segment.Expressible := by
  intro segment mem
  obtain ⟨piece, hpiece, hmem⟩ := List.mem_flatten.1 mem
  cases h piece hpiece with
  | plain _ hexpressible =>
    rw [List.mem_singleton.1 hmem]
    exact hexpressible
  | descent _ hexpressible =>
    obtain rfl | hmem := List.mem_cons.1 hmem
    · trivial
    · rw [List.mem_singleton.1 hmem]
      exact hexpressible

end

/-! ### Lists that can be written -/

/-- The segments have a text that they can be read back from. -/
structure Writable (segments : List Segment) : Prop where
  /-- Every descent stands right before a segment that is none. -/
  descents : DescentsLead segments
  /-- Indices have 64 bits. -/
  indices : ∀ i, .index i ∈ segments → -(2 ^ 63 : Int) ≤ i ∧ i < 2 ^ 63
  /-- The names in fields can stand after a point. -/
  names : ∀ condition, .filter condition ∈ segments →
    ∀ field ∈ condition.fields, ∀ name ∈ field, isName name.toList = true
  /-- The texts of numbers are read as the same numbers. -/
  numbers : ∀ condition, .filter condition ∈ segments →
    ∀ x, .number x ∈ condition.literals → readNumber? (x.text plainStyle) = some (x, [])
  /-- Conditions are not nested too deeply with the parentheses of their texts. -/
  nesting : ∀ condition, .filter condition ∈ segments →
    condition.printedNesting ≤ maxConditionHeight

section
variable {segments : List Segment}

/-- The bounds on indices and names are what `Expressible` asks of a segment. -/
theorem Writable.expressible (h : Writable segments) :
    ∀ segment ∈ segments, segment.Expressible := by
  intro segment mem
  cases segment with
  | index i => exact h.indices i mem
  | filter condition => exact h.names condition mem
  | _ => trivial

/-- The bounds on numbers and nesting are what `Rereadable` asks of one. -/
theorem Writable.rereadable (h : Writable segments) : ∀ segment ∈ segments, segment.Rereadable := by
  intro segment mem
  cases segment with
  | filter condition =>
    refine ⟨?_, h.nesting condition mem⟩
    rintro literal hliteral rfl
    exact readNumber?_text_iff.1 (h.numbers condition mem _ hliteral) rfl
  | _ => trivial

/-- The three conditions on segments together are all that is asked of a list. -/
theorem writable_of_rereadable (lead : DescentsLead segments)
    (hexpressible : ∀ segment ∈ segments, segment.Expressible)
    (hrereadable : ∀ segment ∈ segments, segment.Rereadable) : Writable segments where
  descents := lead
  indices i mem := hexpressible (.index i) mem
  names condition mem := hexpressible (.filter condition) mem
  numbers condition mem x hx := by
    refine readNumber?_text_iff.2 ?_
    rintro rfl
    exact (hrereadable (.filter condition) mem).1 _ hx rfl
  nesting condition mem := (hrereadable (.filter condition) mem).2

/-- What can be written is compiled from its text. -/
theorem Writable.compile_textOf (h : Writable segments) :
    compile (textOf segments) = .ok ⟨textOf segments, segments⟩ := by
  have hpieces := piece_of_mem_pieces h.descents h.expressible
  have hrereadable := h.rereadable
  rw [← flatten_pieces segments] at hrereadable
  have htext := pathText_textOf hpieces hrereadable
  rw [flatten_pieces] at htext
  exact compile_eq_ok_iff.2 ⟨rfl, htext⟩

/-- What is compiled from its own text can be written. -/
theorem writable_of_compile_textOf
    (h : compile (textOf segments) = .ok ⟨textOf segments, segments⟩) : Writable segments := by
  obtain ⟨pieces, rfl, hpieces⟩ := (compile_eq_ok_iff.1 h).2.exists_pieces
  refine writable_of_rereadable (descentsLead_flatten hpieces)
    (expressible_of_mem_flatten hpieces) ?_
  -- With a segment that cannot be read back the text would be no path at all.
  by_contra bad
  obtain ⟨fault, hfault⟩ := exists_compile_textOf_eq_error hpieces bad
  rw [hfault] at h
  cases h

end

/-- A list of segments is compiled from its normal text exactly if it is writable, and two writable
lists have different texts unless they are the same. -/
theorem compile_textOf_iff :
    (∀ segments, compile (textOf segments) = .ok ⟨textOf segments, segments⟩ ↔
        Writable segments) ∧
      ∀ segments other, Writable segments → Writable other →
        textOf segments = textOf other → segments = other := by
  refine ⟨fun segments => ⟨writable_of_compile_textOf, Writable.compile_textOf⟩, ?_⟩
  -- One text compiles to one list.
  intro segments other h h' heq
  have hcompile := h.compile_textOf
  rw [heq, h'.compile_textOf] at hcompile
  cases hcompile
  rfl

/-- Two members, a member whose name has a point in it, and a condition on a string with a quote
are read back from `$..a.b`, `$..['a.b']` and `$..[?(@.b == 'it\'s')]`, and no two of these texts
are the same. -/
theorem textOf_ne_of_point :
    let members := [.descent, .property "a", .property "b"]
    let member := [.descent, .property "a.b"]
    let condition := [.descent, .filter (.compare ["b"] .eq (.string "it's"))]
    (Writable members ∧ Writable member ∧ Writable condition) ∧
      textOf members ≠ textOf member ∧ textOf member ≠ textOf condition ∧
      textOf condition ≠ textOf members := by
  intro members member condition
  have hmembers : Writable members := (compile_textOf_iff.1 members).1 (by decide +kernel)
  have hmember : Writable member := (compile_textOf_iff.1 member).1 (by decide +kernel)
  have hcondition : Writable condition := (compile_textOf_iff.1 condition).1 (by decide +kernel)
  refine ⟨⟨hmembers, hmember, hcondition⟩, ?_, ?_, ?_⟩
  · exact fun heq => absurd (compile_textOf_iff.2 _ _ hmembers hmember heq) (by decide)
  · exact fun heq => absurd (compile_textOf_iff.2 _ _ hmember hcondition heq) (by decide)
  · exact fun heq => absurd (compile_textOf_iff.2 _ _ hcondition hmembers heq) (by decide)

end JsonDoc.Path.Grammar
