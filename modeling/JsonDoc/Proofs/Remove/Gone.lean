import JsonDoc.Proofs.Remove.Agreement

/-!
# `JsonDoc.Proofs.Remove.Gone`: what is deleted stays gone

After a call to delete that succeeds, reading along the same path finds nothing and does not give
up, if the path has no index or ends with a member.

A removal leaves the value without some of its parts (`Removal.pruned`), and so does every later
one. Nothing that segments lead to is new then: conditions say nothing of fields that are not
there, so that one that holds of what is left has held before (`Condition.holds_of_without`), and
an index leads to the item that it led to before if no array has lost any. `Value.Pruned` is this
relation, with the flag `shifts` for arrays that lose items.

Each removal has taken out where its segments led in the value as it was when it came there. So
`Removal.select_eq_nil` asks after everything that later removals may make of what it left.
-/

set_option autoImplicit false

namespace JsonDoc

/-! ### Conditions -/

/-- A comparison looks at scalars and kinds, which parts that are taken out do not change. -/
theorem Literal.compares_without (literal : Literal) (op : Comparison) (gone : Location → Bool)
    (v : Value) : literal.compares op (v.without gone) = literal.compares op v := by
  cases v with
  | array => cases literal <;> rfl
  | object => cases literal <;> rfl
  | _ => rfl

/-- A field is looked up one name at a time. -/
theorem Field.resolve_cons (name : String) (field : Field) (v : Value) :
    Field.resolve (name :: field) v = (v.child? (.key name)).bind (Field.resolve field) := by
  cases v <;> rfl

/-- A field of what is left is what is left of a field. -/
theorem Field.exists_resolve_of_without {field : Field} {gone : Location → Bool} {v w : Value}
    (hv : v.WellFormed) (h : field.resolve (v.without gone) = some w) :
    ∃ u gone', field.resolve v = some u ∧ w = u.without gone' := by
  induction field generalizing gone v with
  | nil => exact ⟨v, gone, rfl, (Option.some.inj h).symm⟩
  | cons name field ih =>
    rw [resolve_cons, Option.bind_eq_some_iff] at h
    obtain ⟨left, hleft, hw⟩ := h
    obtain ⟨child, hchild, rfl⟩ := Value.exists_child?_of_without hv hleft
    rw [resolve_cons, hchild]
    exact ih (hv.of_child? hchild) hw

/-- A condition that holds of what is left has held before. -/
theorem Condition.holds_of_without {condition : Condition} {gone : Location → Bool} {v : Value}
    (hv : v.WellFormed) (h : condition.holds (v.without gone) = true) :
    condition.holds v = true := by
  induction condition with
  | compare field op literal =>
    rw [holds, Option.any_eq_true] at h ⊢
    obtain ⟨w, hw, hcompares⟩ := h
    -- The field that is compared was there before, with more parts.
    obtain ⟨u, gone', hu, rfl⟩ := Field.exists_resolve_of_without hv hw
    exact ⟨u, hu, by rwa [Literal.compares_without] at hcompares⟩
  | present field =>
    rw [holds, Option.isSome_iff_exists] at h ⊢
    obtain ⟨w, hw⟩ := h
    obtain ⟨u, -, hu, -⟩ := Field.exists_resolve_of_without hv hw
    exact ⟨u, hu⟩
  | and left right ihleft ihright =>
    rw [holds, Bool.and_eq_true] at h ⊢
    exact ⟨ihleft h.1, ihright h.2⟩
  | or left right ihleft ihright =>
    rw [holds, Bool.or_eq_true] at h ⊢
    exact h.imp ihleft ihright

/-! ### Segments -/

section
variable {shifts : Bool} {segment : Segment} {f : Step × Value → Option Value} {v w : Value}

/-- A child that the segment leads to in what is left is one that it led to before. -/
theorem Value.Prunes.exists_of_mem_choose (h : v.Prunes shifts f) (hv : v.WellFormed)
    (hindex : shifts = true → ∀ i, segment ≠ .index i) {left : Step × Value}
    (mem : left ∈ segment.choose (v.revise f)) :
    ∃ node ∈ segment.choose v, f node = some left.2 := by
  have hwf := (h.pruned hv.stepsDiffer).wellFormed hv
  obtain ⟨hmem, htakes⟩ := (mem_choose hwf.stepsDiffer).1 mem
  obtain ⟨node, hnode, hleft, hstep⟩ := exists_of_mem_childNodes_revise hmem
  refine ⟨node, (mem_choose hv.stepsDiffer).2 ⟨hnode, ?_⟩, hleft⟩
  cases segment with
  | property name =>
    have hname : left.1 = .key name := of_decide_eq_true htakes
    exact decide_eq_true ((hstep (.inl ⟨name, hname⟩)).trans hname)
  | index i =>
    cases v with
    | array items =>
      -- An index counts the same items as before, as none are lost.
      have hkept : shifts = false := by
        cases shifts with
        | false => rfl
        | true => exact absurd rfl (hindex rfl i)
      have hall : ∀ other ∈ (array items).childNodes, f other ≠ none := by
        intro other hother
        obtain ⟨place, hplace⟩ := List.mem_iff_getElem?.1 hother
        exact h.keeps hkept other hother place (getElem?_childNodes_array.1 hplace).1
      have hlength :
          ((array items).revise f).children.length = (array items).children.length := by
        rw [children_revise, List.filterMap_length_eq_length.2, length_childNodes]
        exact fun node mem => Option.isSome_iff_ne_none.2 (hall node mem)
      rwa [Segment.takes, hlength, ← hstep (.inr hall)] at htakes
    | object members =>
      obtain ⟨m, -, rfl⟩ := List.mem_map.1 hmem
      simp [Segment.takes] at htakes
    | _ => cases hnode
  | filter condition =>
    -- The condition holds of what is left of the candidate.
    obtain ⟨gone, -, hgone⟩ := h.child node hnode left.2 hleft
    rw [Segment.takes, hgone] at htakes
    exact Condition.holds_of_without
      (hv.of_mem_children (mem_children_of_mem_childNodes hnode)) htakes
  | _ => rfl

/-- A child that a segment leads to in what is left is what is left of one that it led to before. An
index is excluded where arrays may have lost items. -/
theorem Value.Pruned.exists_of_mem_choose (h : v.Pruned shifts w) (hv : v.WellFormed)
    (hindex : shifts = true → ∀ i, segment ≠ .index i) {left : Step × Value}
    (mem : left ∈ segment.choose w) :
    ∃ node ∈ segment.choose v, node.2.Pruned shifts left.2 := by
  obtain ⟨f, hf, rfl⟩ := h.exists_prunes
  obtain ⟨node, hnode, hleft⟩ := hf.exists_of_mem_choose hv hindex mem
  exact ⟨node, hnode, hf.child node (mem_childNodes_of_mem_choose hnode) _ hleft⟩

end

/-! ### Removals -/

/-- The segments end with a member, or, with `shifts`, they may take items out of arrays, but then
no index is among them. -/
structure Durable (shifts : Bool) (segments : List Segment) : Prop where
  member : shifts = false → EndsWithMember segments
  noIndex : shifts = true → ∀ i, .index i ∉ segments

/-- What is asked of segments is asked of those behind the first one as well. -/
theorem Durable.of_cons {shifts : Bool} {segment : Segment} {rest : List Segment}
    (h : Durable shifts (segment :: rest)) (hrest : rest ≠ []) : Durable shifts rest where
  member hshifts := (h.member hshifts).of_cons hrest
  noIndex hshifts i mem := h.noIndex hshifts i (List.mem_cons_of_mem _ mem)

/-- Where items may be taken out the first segment is no index. -/
theorem Durable.ne_index {shifts : Bool} {segment : Segment} {rest : List Segment}
    (h : Durable shifts (segment :: rest)) (hshifts : shifts = true) (i : Int) :
    segment ≠ .index i := by
  rintro rfl
  exact h.noIndex hshifts i List.mem_cons_self

section
variable {shifts : Bool} {segment : Segment} {rest segments : List Segment} {v left : Value}

/-- A walk that finds nothing below any child finds nothing. -/
theorem gather_eq_nil {walk : Value → Option (List Node)} {children : List (Step × Value)}
    (h : ∀ node ∈ children, walk node.2 = some []) : gather walk children = some [] := by
  induction children with
  | nil => rfl
  | cons node rest ih =>
    obtain ⟨hnode, hrest⟩ := List.forall_mem_cons.1 h
    rw [gather_cons, hnode, ih hrest]
    rfl

/-- Where a removal has been the segments lead nowhere any more, whatever else is taken out, and
a walk along them comes to its end. -/
theorem Removal.select_eq_nil {budget n : Nat} (h : Removal segments budget v left n)
    (hv : v.WellFormed) (durable : Durable shifts segments) {w : Value}
    (hw : left.Pruned shifts w) : select segments budget w = some [] := by
  induction h generalizing w with
  | @last segment budget v hsegment =>
    have hprunes := prunes_last durable.member (v := v)
    have hwf := (hprunes.pruned hv.stepsDiffer).wellFormed hv
    rw [select_cons hsegment]
    refine gather_eq_nil fun node mem => ?_
    -- A child that is left was none that the segment led to.
    obtain ⟨kept, hkept, -⟩ := hw.exists_of_mem_choose hwf durable.ne_index mem
    obtain ⟨old, hold, hleft⟩ := hprunes.exists_of_mem_choose hv durable.ne_index hkept
    rw [if_pos ((mem_choose hv.stepsDiffer).1 hold).2] at hleft
    cases hleft
  | @pass segment rest budget v left count hsegment below hbelow ih =>
    have hrest := durable.of_cons below.ne_nil
    have hchild (node : Step × Value) (mem : node ∈ segment.choose v) : node.2.WellFormed :=
      hv.of_mem_children (mem_children_of_mem_choose mem)
    have hprunes := prunes_pass hv.stepsDiffer fun node mem =>
      (hbelow node mem).pruned (hchild node mem) hrest.member
    have hwf := (hprunes.pruned hv.stepsDiffer).wellFormed hv
    rw [select_cons hsegment]
    refine gather_eq_nil fun node mem => ?_
    obtain ⟨kept, hkept, hnode⟩ := hw.exists_of_mem_choose hwf durable.ne_index mem
    obtain ⟨old, hold, hleft⟩ := hprunes.exists_of_mem_choose hv durable.ne_index hkept
    rw [if_pos ((mem_choose hv.stepsDiffer).1 hold).2] at hleft
    rw [← Option.some.inj hleft] at hnode
    exact ih old hold (hchild old hold) hrest hnode
  | @descend rest budget v here n left count below hhere hbelow ihhere ihbelow =>
    have hrest := durable.of_cons below.ne_nil
    have hwf := hhere.wellFormed hv
    have hprunes := prunes_below fun child mem =>
      (hbelow child mem).pruned (hwf.of_mem_children mem) durable.member
    have hpruned := hprunes.pruned hwf.stepsDiffer
    rw [Value.withChildren_map] at hw
    have hnone := ihhere hv hrest (hpruned.trans hw)
    have hwf' := hpruned.wellFormed hwf
    have ne_index (i : Int) : Segment.wildcard ≠ .index i := nofun
    have hnext : gather (JsonDoc.descend (select rest) budget) w.childNodes = some [] := by
      refine gather_eq_nil fun node (mem : node ∈ Segment.wildcard.choose w) => ?_
      obtain ⟨kept, hkept, hnode⟩ := hw.exists_of_mem_choose hwf' (fun _ => ne_index) mem
      obtain ⟨old, hold, hleft⟩ := hprunes.exists_of_mem_choose hwf (fun _ => ne_index) hkept
      rw [← Option.some.inj hleft] at hnode
      have hchild := Value.mem_children_of_mem_childNodes hold
      exact ihbelow old.2 hchild (hwf.of_mem_children hchild) durable hnode
    rw [select, JsonDoc.descend, hnone, hnext]
    rfl

end

/-- After a call to delete that succeeds, reading along the path finds nothing, and does not give
up, if the path ends with a member or has no index. -/
theorem Path.getAll_delete {text : String} {path : Path} (hpath : Path.compile text = .ok path)
    {root : Value} (hroot : root.WellFormed) {limits : Limits}
    (hshape : (∃ name, path.segments.getLast? = some (.property name)) ∨
      ∀ i, .index i ∉ path.segments)
    (hok : (path.delete limits root).outcome = .ok ()) :
    path.getAll limits (path.delete limits root).value = .ok [] ∧
      path.exists? limits (path.delete limits root).value = false := by
  have below := Path.leadsBelow_of_compile hpath (Path.isRoot_eq_false_of_delete hok)
  -- Either shape of the path makes up for what a removal moves.
  obtain ⟨shifts, durable⟩ : ∃ shifts, Durable shifts path.segments := by
    obtain hmember | hindex := hshape
    · exact ⟨false, fun _ => hmember, nofun⟩
    · exact ⟨true, nofun, fun _ => hindex⟩
  obtain ⟨count, hcount⟩ := Path.exists_ok_remove below.ne_nil hok
  have hselect := (removal_of_ok below hroot hcount).select_eq_nil hroot durable (.refl shifts _)
  rw [Path.delete_eq below.ne_nil, Edited.finish_value]
  have hnone : path.getAll limits
      (remove limits.maxDepth path.segments (limits.maxDepth + 1) root).value = .ok [] :=
    Path.getAll_eq_ok_iff.2 ⟨[], hselect, rfl⟩
  refine ⟨hnone, ?_⟩
  rw [exists?, Path.count, hnone]
  rfl

/-- Along one path the items keep their places, along the other they move to the front. -/
theorem Path.getAll_delete_items :
    ∃ member items : Path, ∃ root : Value,
      Path.compile "$..[0].a" = .ok member ∧ Path.compile "$..[?(@.a)]" = .ok items ∧
        (member.delete ⟨3, 0, 0⟩ root).outcome = .ok () ∧
        member.getAll ⟨3, 0, 0⟩ (member.delete ⟨3, 0, 0⟩ root).value = .ok [] ∧
        (items.delete ⟨3, 0, 0⟩ root).outcome = .ok () ∧
        items.getAll ⟨3, 0, 0⟩ (items.delete ⟨3, 0, 0⟩ root).value = .ok [] := by
  let member : Path := ⟨"$..[0].a", [.descent, .index 0, .property "a"]⟩
  let items : Path := ⟨"$..[?(@.a)]", [.descent, .filter (.present ["a"])]⟩
  let root : Value := .array [.object [("a", .null), ("b", .array [.object [("a", .null)]])], .null]
  have hmember : Path.compile "$..[0].a" = .ok member := by decide +kernel
  have hitems : Path.compile "$..[?(@.a)]" = .ok items := by decide +kernel
  have hroot : root.WellFormed := by simp [root, Members.keys]
  have noIndex : ∀ i, Segment.index i ∉ items.segments := by simp [items]
  refine ⟨member, items, root, hmember, hitems, rfl, ?_, rfl, ?_⟩
  · exact (Path.getAll_delete hmember hroot (.inl ⟨"a", rfl⟩) rfl).1
  · exact (Path.getAll_delete hitems hroot (.inr noIndex) rfl).1

end JsonDoc
