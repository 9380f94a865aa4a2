import JsonDoc.Proofs.Json.RoundTrip

/-!
# `JsonDoc.Proofs.Json.Canonical`: the sorted text is canonical

Members in strictly ascending order are determined by look-up (`Members.eq_of_get?_eq`). So a
document whose members are in order everywhere is the only such one among those that differ in
nothing but the order of members (`eq_of_reordered`).

`Value.canonical` puts the members in order and takes the signs from the zeros. Documents that `==`
identifies have one canonical form (`canonical_eq_of_beq`). As the signs of zeros are not written,
the sorted text is that of the canonical form, and equal documents have one text.

In the other direction a text stands for one document at most (`ValueText.unique`). Documents whose
numbers are integers that are written in digits are equal to what their sorted texts stand for, and
so equal to each other if these are the same.
-/

set_option autoImplicit false

namespace JsonDoc

open Number

/-! ### Members in order -/

/-- Members in the order of their keys are determined by what is found under each key. -/
theorem Members.eq_of_get?_eq {α : Type} {members others : Members α}
    (hmembers : (keys members).Pairwise (· < ·)) (hothers : (keys others).Pairwise (· < ·))
    (h : ∀ key, get? members key = get? others key) : members = others := by
  have hnodup {some' : Members α} (hsome : (keys some').Pairwise (· < ·)) : (keys some').Nodup :=
    hsome.imp String.ne_of_lt
  have hperm : members.Perm others := by
    refine (List.perm_ext_iff_of_nodup (hnodup hmembers).of_map (hnodup hothers).of_map).2 ?_
    rintro ⟨key, a⟩
    constructor
    · intro mem
      exact mem_of_get? (h key ▸ get?_of_mem (hnodup hmembers) mem)
    · intro mem
      exact mem_of_get? (h key ▸ get?_of_mem (hnodup hothers) mem)
  refine hperm.eq_of_pairwise ?_ (List.pairwise_map.1 hmembers) (List.pairwise_map.1 hothers)
  intro a b _ _ hab hba
  exact absurd hba (String.lt_asymm hab)

namespace Value

/-- The members of every object are in strictly ascending order of their keys. -/
def InOrder (v : Value) : Prop :=
  ∀ location members, v.at? location = some (.object members) →
    (Members.keys members).Pairwise (· < ·)

section
variable {v w child : Value} {same : Binary64 → Binary64 → Prop}

/-- If the members are in order everywhere they are in order in a child. -/
theorem InOrder.of_child? (h : v.InOrder) {step : Step} (hchild : v.child? step = some child) :
    child.InOrder := by
  intro location members hmembers
  exact h (step :: location) members (by rw [at?_cons_of_child? hchild, hmembers])

/-- Documents in order that differ in nothing but the order of members are the same. -/
theorem eq_of_reordered (hv : v.InOrder) (hw : w.InOrder) (h : Reordered v w) : v = w := by
  induction v using induction_on_children generalizing w with
  | step v ih =>
    -- The same child at every step; each container is then settled by its children in order.
    have hchild (step : Step) : v.child? step = w.child? step := by
      cases hold : v.child? step with
      | none => rw [eq_none_of_rel (h.child? step) hold]
      | some child =>
        obtain ⟨other, hother, halike⟩ := h.exists_child? hold
        have heq := ih _ (mem_childNodes_of_child? hold) (hv.of_child? hold)
          (hw.of_child? hother) halike
        exact hother ▸ congrArg some heq
    cases v with
    | array items =>
      cases w with
      | array others => rw [List.ext_getElem? fun place => hchild (.item place)]
      | _ => exact h.sameHead.elim
    | object members =>
      cases w with
      | object others =>
        rw [Members.eq_of_get?_eq (hv [] members rfl) (hw [] others rfl) fun key =>
          hchild (.key key)]
      | _ => exact h.sameHead.elim
    | null =>
      cases w with
      | null => rfl
      | _ => exact h.sameHead.elim
    | _ =>
      cases w <;> first
        | exact h.sameHead.elim
        | rw [show _ = _ from h.sameHead]

/-- Sorting puts the members of every object in order. Keys differ, so that the order is strict. -/
theorem inOrder_sorted (hv : v.WellFormed) : v.sorted.InOrder := by
  intro location members hmembers
  rw [pointwise_sorted.at? hv] at hmembers
  obtain ⟨node, hnode, hsorted⟩ := Option.map_eq_some_iff.1 hmembers
  obtain ⟨old, rfl⟩ := pointwise_sorted.exists_object hsorted
  exact (hv.of_at? hnode).pairwise_keys_of_sorted_eq hsorted

/-- The signs of zeros do not matter for the order of members. -/
theorem InOrder.plainZeros (h : v.InOrder) (hv : v.WellFormed) : v.plainZeros.InOrder := by
  intro location members hmembers
  rw [pointwise_plainZeros.at? hv] at hmembers
  obtain ⟨node, hnode, hplain⟩ := Option.map_eq_some_iff.1 hmembers
  obtain ⟨old, rfl⟩ := pointwise_plainZeros.exists_object hplain
  cases hplain
  rw [keys_plainZeroMembers]
  exact h location old hnode

/-! ### The canonical form -/

/-- The document with its members in order and no signs at its zeros. -/
def canonical (v : Value) : Value := v.sorted.plainZeros

/-- Both steps to the canonical form work node by node. -/
theorem pointwise_canonical : Pointwise canonical := pointwise_plainZeros.comp pointwise_sorted

/-- The members of a canonical form are in order. -/
theorem inOrder_canonical (hv : v.WellFormed) : v.canonical.InOrder :=
  (inOrder_sorted hv).plainZeros (pointwise_sorted.wellFormed hv)

/-- Scalars that are equal have one canonical form: the sign of a zero is all in which they can
differ. -/
theorem sameHead_canonical (h : SameHead (fun x y => x.equals y = true) v w) :
    SameHead Eq v.canonical w.canonical := by
  cases v <;> cases w <;> first
    | exact h.elim
    | trivial
    | exact h
    | exact Binary64.plainZero_eq_of_equals h

/-- Equal documents have one canonical form. -/
theorem canonical_eq_of_beq (hv : v.WellFormed) (hw : w.WellFormed) (h : (v == w) = true) :
    v.canonical = w.canonical := by
  refine eq_of_reordered (inOrder_canonical hv) (inOrder_canonical hw) fun location => ?_
  have hrel := (beq_iff_alike hv hw).1 h location
  rw [pointwise_canonical.at? hv, pointwise_canonical.at? hw]
  generalize v.at? location = node, w.at? location = other at hrel ⊢
  cases hrel with
  | none => exact .none
  | some hhead => exact .some (sameHead_canonical hhead)

/-- Values that are alike are equally deep; here one half of it. -/
theorem Alike.depth_le (h : Alike same v w) (hv : v.WellFormed) : v.depth ≤ w.depth := by
  induction v using induction_on_children generalizing w with
  | step v ih =>
    refine depth_le_of_children h.kind_eq fun child mem => ?_
    obtain ⟨step, hchild⟩ := exists_child?_of_mem_children hv.stepsDiffer mem
    obtain ⟨other, hother, halike⟩ := h.exists_child? hchild
    exact ⟨other, mem_children_of_child? hother,
      ih _ (mem_childNodes_of_child? hchild) halike (hv.of_child? hchild)⟩

/-- Alike documents are equally deep. -/
theorem Alike.depth_eq (hsame : ∀ x y, same x y → same y x) (h : Alike same v w)
    (hv : v.WellFormed) (hw : w.WellFormed) : v.depth = w.depth :=
  Nat.le_antisymm (h.depth_le hv) ((h.symm hsame).depth_le hw)

end

/-! ### Writing -/

/-- The sign of a zero is not written. -/
theorem numberText_plainZero (x : Binary64) : numberText x.plainZero = numberText x := by
  cases x with
  | finite negative rank =>
    rcases Decidable.em (rank.val = 0) with hzero | hne
    · have hrank : rank = ⟨0, by decide⟩ := Fin.ext hzero
      rw [Binary64.plainZero_of_zero hzero, hrank]
      cases negative <;> decide +kernel
    · rw [Binary64.plainZero_of_ne_zero hne]
  | _ => rfl

section
variable (layout : Json.Layout)

mutual

/-- A document is written like the one without the signs of its zeros. -/
theorem write_plainZeros (level : Nat) (out : String) :
    (v : Value) → write layout level out v.plainZeros = write layout level out v
  | null | bool _ | string _ | array [] | object [] => rfl
  | number x => congrArg (out ++ ·) (numberText_plainZero x)
  | array (item :: rest) =>
    congrArg (layout.newLine level · ++ "]")
      (writeItems_plainZeroItems (level + 1) "" (out ++ "[") (item :: rest))
  | object (m :: rest) =>
    congrArg (layout.newLine level · ++ "\x7d")
      (writeMembers_plainZeroMembers (level + 1) "" (out ++ "\x7b") (m :: rest))

/-- A list of items has the same text without the signs of zeros. -/
theorem writeItems_plainZeroItems (level : Nat) (separator out : String) :
    (items : List Value) →
      writeItems layout level separator out (plainZeroItems items)
        = writeItems layout level separator out items
  | [] => rfl
  | item :: rest => by
    rw [plainZeroItems, writeItems, writeItems, write_plainZeros level _ item,
      writeItems_plainZeroItems level "," _ rest]

/-- A list of members has the same text without the signs of its zeros. -/
theorem writeMembers_plainZeroMembers (level : Nat) (separator out : String) :
    (members : List (String × Value)) →
      writeMembers layout level separator out (plainZeroMembers members)
        = writeMembers layout level separator out members
  | [] => rfl
  | (key, item) :: rest => by
    rw [plainZeroMembers, writeMembers, writeMembers, write_plainZeros level _ item,
      writeMembers_plainZeroMembers level "," _ rest]

end

end

section
variable {options : WriteOptions} {v w : Value}

/-- With its members in order, a document is written like its canonical form. -/
theorem serialize_eq_of_sorted (hsort : options.sortKeys = true)
    (hdepth : v.depth ≤ options.maxDepth) :
    v.serialize options =
      let text := v.canonical.write options.layout 0 ""
      .ok (if options.htmlEscape then escapeHtml text else text) := by
  rw [serialize, if_neg (Nat.not_lt.2 hdepth), hsort, canonical, write_plainZeros]
  rfl

/-- A document that is too deep is refused whatever is in it. -/
theorem serialize_eq_error (hdepth : options.maxDepth < v.depth) :
    v.serialize options = .error (.tooDeep options.maxDepth) := if_pos hdepth

/-- A document that has been written was within the depth limit. -/
theorem depth_le_of_serialize {text : String} (h : v.serialize options = .ok text) :
    v.depth ≤ options.maxDepth := by
  by_contra hdepth
  rw [serialize_eq_error (Nat.not_le.1 hdepth)] at h
  cases h

/-- On one line there is no indent. -/
theorem serialize_compact (hcompact : options.compact = true) (v : Value) :
    v.serialize options = v.serialize { options with indent := "" } := by
  rw [serialize, serialize, WriteOptions.layout, WriteOptions.layout, hcompact]
  rfl

end

end Value

/-- A text stands for one document at most. -/
theorem Json.Grammar.ValueText.unique {depth depth' : Nat} {cs : List Char} {v w : Value}
    (h : ValueText depth cs v) (h' : ValueText depth' cs w) : v = w := by
  have hread {n : Nat} {u : Value} (hle : n ≤ max depth depth') (hu : ValueText n cs u) :
      readValue Value.builder cs.length 0 (max depth depth') (max depth depth') (utf8 cs ++ [])
        = .ok (u, []) :=
    (reads_readValue hle hle).reads ⟨hu, Nat.le_refl _⟩ separates_nil
  have heq := (hread (Nat.le_max_left _ _) h).symm.trans (hread (Nat.le_max_right _ _) h')
  exact congrArg Prod.fst (Except.ok.inj heq)

namespace Value

section
variable {options : WriteOptions} {v w : Value}

/-- The canonical form is equal to the document, location by location; the numbers are whole, so
that none of them is not-a-number. -/
theorem alike_canonical (hv : v.WellFormed) (hsafe : v.SafeIntegers) :
    Alike (fun x y => x.equals y = true) v.canonical v := by
  have hreordered : Reordered (ordered { sortKeys := true } v) v := reordered_ordered hv
  refine (alike_plainZeros (pointwise_sorted.wellFormed hv) (hsafe.of_reordered hreordered)).trans
    ?_ hreordered
  rintro x y _ hxy rfl
  exact hxy

/-- The sorted text on one line is a text of the canonical form. -/
theorem exists_valueText_canonical (hv : v.WellFormed) (hsafe : v.SafeIntegers)
    (hsort : options.sortKeys = true) (hcompact : options.compact = true) {text : String}
    (h : v.serialize options = .ok text) :
    Json.Grammar.ValueText v.depth text.toList v.canonical := by
  rw [serialize_compact hcompact] at h
  have hspaces : Json.Grammar.Spaces { options with indent := "" }.indent.toList :=
    Json.Grammar.spaces_nil
  obtain ⟨cs, hcs, hvalue⟩ := exists_serialize hv hsafe (depth_le_of_serialize h) hspaces
  obtain rfl : text = String.ofList cs := Except.ok.inj (h.symm.trans hcs)
  rw [ordered, hsort] at hvalue
  rwa [String.toList_ofList]

end

/-- With members in the order of their keys, equal documents have the same text, or both are too
deep; and documents in which all numbers are integers that are written in digits are equal if they
have the same text on one line. -/
theorem serialize_sorted_canonical {options : WriteOptions} (hsort : options.sortKeys = true)
    {a b : Value} (ha : a.WellFormed) (hb : b.WellFormed) :
    ((a == b) = true →
      (∃ text, a.serialize options = .ok text ∧ b.serialize options = .ok text) ∨
        a.serialize options = .error (.tooDeep options.maxDepth) ∧
          b.serialize options = .error (.tooDeep options.maxDepth)) ∧
      (options.compact = true → a.SafeIntegers → b.SafeIntegers → ∀ text,
        a.serialize options = .ok text → b.serialize options = .ok text → (a == b) = true) := by
  have hsame (x y : Binary64) (h : x.equals y = true) : y.equals x = true := by
    obtain ⟨place, hx, hy⟩ := Binary64.equals_iff.1 h
    exact Binary64.equals_iff.2 ⟨place, hy, hx⟩
  constructor
  · intro h
    have hdepth : a.depth = b.depth := ((beq_iff_alike ha hb).1 h).depth_eq hsame ha hb
    rcases Nat.lt_or_ge options.maxDepth a.depth with hdeep | hle
    · exact .inr ⟨serialize_eq_error hdeep, serialize_eq_error (hdepth ▸ hdeep)⟩
    · -- Both texts are the compact or indented form of one and the same canonical value.
      refine .inl ⟨_, serialize_eq_of_sorted hsort hle, ?_⟩
      rw [canonical_eq_of_beq ha hb h]
      exact serialize_eq_of_sorted hsort (hdepth ▸ hle)
  · intro hcompact hsafea hsafeb text hatext hbtext
    -- A text denotes one value only, and what it denotes is canonical.
    have hcanonical : a.canonical = b.canonical :=
      (exists_valueText_canonical ha hsafea hsort hcompact hatext).unique
        (exists_valueText_canonical hb hsafeb hsort hcompact hbtext)
    have halike := alike_canonical hb hsafeb
    rw [← hcanonical] at halike
    refine (beq_iff_alike ha hb).2 (((alike_canonical ha hsafea).symm hsame).trans ?_ halike)
    intro x y z hxy hyz
    obtain ⟨place, hx, hy⟩ := Binary64.equals_iff.1 hxy
    obtain ⟨place', hy', hz⟩ := Binary64.equals_iff.1 hyz
    exact Binary64.equals_iff.2 ⟨place', (hx.trans (hy.symm.trans hy')), hz⟩

/-- Members in both orders, and the zeros of both signs. -/
theorem serialize_sorted_canonical_swapped :
    let a : Value := .object [("b", .number Binary64.zero.neg), ("a", .array [])]
    let b : Value := .object [("a", .array []), ("b", .number .zero)]
    let options : WriteOptions := { sortKeys := true, maxDepth := 2 }
    a ≠ b ∧ a.SafeIntegers ∧ b.SafeIntegers ∧ (a == b) = true ∧
      ∃ text, a.serialize options = .ok text ∧ b.serialize options = .ok text := by
  intro a b options
  have ha : a.WellFormed := by simp [a, Members.keys]
  have hb : b.WellFormed := by simp [b, Members.keys]
  have hnumber (x : Binary64) (hx : x.toInt? = some 0) : (Value.number x).SafeIntegers := by
    refine safeIntegers_of_children (fun y hy => ?_) (by simp [children])
    cases hy
    exact ⟨0, hx, Nat.zero_le _⟩
  have harray : (Value.array []).SafeIntegers :=
    safeIntegers_of_children (by simp) (by simp [children])
  have hsafea : a.SafeIntegers := by
    refine safeIntegers_of_children (by simp [a]) ?_
    simpa [a, children, Members.values] using ⟨hnumber _ (by decide +kernel), harray⟩
  have hsafeb : b.SafeIntegers := by
    refine safeIntegers_of_children (by simp [b]) ?_
    simpa [b, children, Members.values] using ⟨harray, hnumber _ (by decide +kernel)⟩
  have hsort : options.sortKeys = true := rfl
  obtain ⟨hsame, hequal⟩ := serialize_sorted_canonical hsort ha hb
  have hok := serialize_eq_of_sorted hsort (show a.depth ≤ 2 by decide)
  -- The shallow value rules out the branch on which both calls fail.
  obtain ⟨text, hatext, hbtext⟩ := (hsame rfl).resolve_right fun h => by
    rw [h.1] at hok
    cases hok
  exact ⟨by simp [a, b], hsafea, hsafeb, hequal rfl hsafea hsafeb text hatext hbtext, text,
    hatext, hbtext⟩

end Value

end JsonDoc
