import JsonDoc.Proofs.Edit.Undo

/-!
# `JsonDoc.Proofs.Edit.Residue`: what a failed assignment leaves behind

A failed call to assign is meant to leave no container behind that it made, and no array longer
than it was. What is made is undone level by level, and only where nothing was assigned below. So
a fan-out that fails at one child keeps what it made and assigned in the children before.

`NothingMade` is what is meant. `Path.set_nothingMade_iff` says exactly when it is so: when
every location at which the call has assigned had a place before, `HasPlace`. In one direction a
container that was made for the value is found above it; it cannot be part of the value, which it
holds (`NothingMade.hasPlace`). In the other, what was made and stays was made for a value
assigned below it (`exists_assigned_of_any`), at a location that had no place.
-/

set_option autoImplicit false

namespace JsonDoc

/-! ### Containers that were made -/

/-- Nothing was made on the way from `before` to `after`: a container of `after` is the value
assigned or part of it, or it stands where `before` has a container of its kind, and an array
there is not longer than that one. -/
def NothingMade (before assigned after : Value) : Prop :=
  ∀ location v, after.at? location = some v → v.kind = .array ∨ v.kind = .object →
    (∃ inner, assigned.at? inner = some v) ∨
      ∃ old, before.at? location = some old ∧ old.kind = v.kind ∧
        (v.kind = .array → v.children.length ≤ old.children.length)

namespace NothingMade

variable {v assigned : Value}

/-- Where nothing changes nothing was made. -/
theorem refl (v assigned : Value) : NothingMade v assigned v := by
  intro location w hw _
  exact .inr ⟨w, hw, rfl, fun _ => Nat.le_refl _⟩

/-- The value assigned is no container that was made. -/
theorem of_assigned (v assigned : Value) : NothingMade v assigned assigned := by
  intro location w hw _
  exact .inl ⟨location, hw⟩

/-- A container below a child that was edited was assigned, or stood there before; this is what both
lemmas below say of the edited child. -/
theorem under {old new : Value} {step : Step} (h : NothingMade old assigned new)
    (hold : v.child? step = some old) {location : Location} {w : Value}
    (hw : new.at? location = some w) (hkind : w.kind = .array ∨ w.kind = .object) :
    (∃ inner, assigned.at? inner = some w) ∨
      ∃ there, v.at? (step :: location) = some there ∧ there.kind = w.kind ∧
        (w.kind = .array → w.children.length ≤ there.children.length) := by
  rw [Value.at?_cons_of_child? hold]
  exact h location w hw hkind

/-- If nothing was made in a child, nothing is made by putting it back. -/
theorem putChild {old new : Value} {step : Step} (h : NothingMade old assigned new)
    (hold : v.child? step = some old) : NothingMade v assigned (v.putChild step new) := by
  intro location w hw hkind
  cases location with
  | nil =>
    cases hw
    refine .inr ⟨v, rfl, (Value.kind_putChild hold new).symm, fun _ => ?_⟩
    exact Nat.le_of_eq (Value.length_children_putChild hold new)
  | cons other location =>
    by_cases hstep : other = step
    · subst hstep
      rw [Value.at?_cons_of_child? (Value.child?_putChild (Value.takes_of_child? hold) new)] at hw
      exact h.under hold hw hkind
    · rw [Value.at?, Value.child?_putChild_of_ne hold hstep] at hw
      exact .inr ⟨w, hw, rfl, fun _ => Nat.le_refl _⟩

/-- A new member of an object is no container that was made, if it is the value assigned. -/
theorem put {members : List (String × Value)} (name : String) :
    NothingMade (.object members) assigned (.object (Members.put members name assigned)) := by
  intro location w hw hkind
  cases location with
  | nil =>
    cases hw
    exact .inr ⟨_, rfl, rfl, nofun⟩
  | cons step location =>
    cases step with
    | item place => cases hw
    | key other =>
      rw [Value.at?, Value.child?, Members.get?_put] at hw
      split at hw
      · exact .inl ⟨location, hw⟩
      · exact .inr ⟨w, hw, rfl, fun _ => Nat.le_refl _⟩

/-- If nothing was made in any child, nothing is made by putting all of them back. -/
theorem withChildren {items : List Value} (differ : v.StepsDiffer)
    (hlength : items.length = v.children.length)
    (h : ∀ (place : Nat) (old new : Value), v.children[place]? = some old →
      items[place]? = some new → NothingMade old assigned new) :
    NothingMade v assigned (v.withChildren items) := by
  intro location w hw hkind
  cases location with
  | nil =>
    cases hw
    refine .inr ⟨v, rfl, (v.kind_withChildren items).symm, fun _ => ?_⟩
    rw [Value.children_withChildren hlength]
    exact Nat.le_of_eq hlength
  | cons step location =>
    obtain ⟨new, hnew, hw⟩ := Option.bind_eq_some_iff.1 hw
    obtain ⟨place, old, hnode, hitem⟩ := Value.exists_place_of_withChildren hlength hnew
    have hold := Value.child?_of_mem_childNodes differ (List.mem_of_getElem? hnode)
    exact (h place old new (Value.getElem?_children_of_childNodes hnode) hitem).under hold hw hkind

end NothingMade

/-! ### Places that were there before -/

/-- The location is there, or it is that of a member, present or not, of an object that is
there. -/
def HasPlace (v : Value) (location : Location) : Prop :=
  (∃ w, v.at? location = some w) ∨
    ∃ parent name members, location = parent ++ [.key name] ∧ v.at? parent = some (.object members)

/-- A place below a child is a place of the child. -/
theorem HasPlace.of_cons {v child : Value} {step : Step} {location : Location}
    (h : HasPlace v (step :: location)) (hchild : v.child? step = some child) :
    HasPlace child location := by
  rcases h with ⟨w, hw⟩ | ⟨parent, name, members, hlocation, hparent⟩
  · rw [Value.at?_cons_of_child? hchild] at hw
    exact .inl ⟨w, hw⟩
  · cases parent with
    | nil =>
      cases hlocation
      exact .inl ⟨child, rfl⟩
    | cons first parent =>
      cases hlocation
      rw [Value.at?_cons_of_child? hchild] at hparent
      exact .inr ⟨parent, name, members, rfl, hparent⟩

/-- Where there is no child there can only be place for a member. -/
theorem HasPlace.of_absent {v : Value} {step : Step} {location : Location}
    (h : HasPlace v (step :: location)) (absent : v.child? step = none) :
    location = [] ∧ ∃ name members, step = .key name ∧ v = .object members := by
  rcases h with ⟨w, hw⟩ | ⟨parent, name, members, hlocation, hparent⟩
  · rw [Value.at?, absent] at hw
    cases hw
  · cases parent with
    | nil =>
      cases hlocation
      cases hparent
      exact ⟨rfl, name, members, rfl, rfl⟩
    | cons first parent =>
      cases hlocation
      rw [Value.at?, absent] at hparent
      cases hparent

/-- Where nothing was made, the value assigned stands in a place that was there before: the
container that holds it is larger than it, and so is no part of it. -/
theorem NothingMade.hasPlace {before assigned after : Value} (h : NothingMade before assigned after)
    {location : Location} (hat : after.at? location = some assigned) :
    HasPlace before location := by
  rcases List.eq_nil_or_concat location with rfl | ⟨parent, step, rfl⟩
  · exact .inl ⟨before, rfl⟩
  · rw [List.concat_eq_append] at hat ⊢
    rw [Value.at?_append] at hat
    obtain ⟨container, hcontainer, hchild⟩ := Option.bind_eq_some_iff.1 hat
    rw [Value.at?_singleton] at hchild
    have hinner (inner : Location) : assigned.at? inner ≠ some container :=
      fun h => Value.child?_ne_self_of_at? h step hchild
    rw [Value.child?.eq_def] at hchild
    split at hchild
    · next members name =>
      obtain ⟨inner, h⟩ | ⟨old, hold, hkind, -⟩ := h parent _ hcontainer (.inr rfl)
      · exact absurd h (hinner inner)
      · cases old with
        | object olds => exact .inr ⟨parent, name, olds, rfl, hold⟩
        | _ => cases hkind
    · next items place =>
      obtain ⟨inner, h⟩ | ⟨old, hold, hkind, hle⟩ := h parent _ hcontainer (.inl rfl)
      · exact absurd h (hinner inner)
      · cases old with
        | array olds =>
          -- The array is not longer than it was, so the item was there.
          obtain ⟨lt, -⟩ := List.getElem?_eq_some_iff.1 hchild
          have hlt : place < olds.length := Nat.lt_of_lt_of_le lt (hle rfl)
          refine .inl ⟨olds[place], ?_⟩
          rw [Value.at?_append, hold, Option.bind_some, Value.at?, Value.child?,
            List.getElem?_eq_getElem hlt]
          rfl
        | _ => cases hkind
    · cases hchild

/-! ### Where a value is assigned -/

/-- An assignment that reports nodes has assigned at a location, the same for every value. -/
theorem exists_assigned_of_any {limits : Limits} {new v : Value} {segments : List Segment}
    (hv : v.WellFormed) (hany : (assign limits new segments v).any) :
    ∃ location : Location, location.length = segments.length ∧
      ∀ x, (assign limits x segments v).value.at? location = some x := by
  induction segments generalizing v with
  | nil => exact ⟨[], rfl, fun _ => rfl⟩
  | cons segment rest ih =>
    obtain hsingle | hfans | rfl := segment.cases_kind
    · cases Segment.entry hsingle limits rest v with
      | closed outcome idle none eq =>
        rw [eq, idle.any_eq_false] at hany
        cases hany
      | present step child here eq =>
        rw [eq, Edited.any_mk_outcome] at hany
        have hchild := child?_of_choose hsingle here
        obtain ⟨location, hlength, hat⟩ := ih (hv.of_child? hchild) hany
        refine ⟨step :: location, congrArg Nat.succ hlength, fun x => ?_⟩
        rw [eq, Value.at?_cons_of_child? (Value.child?_putChild (Value.takes_of_child? hchild) _)]
        exact hat x
      | missing step none absent takes reaches eq =>
        rw [eq, Edited.any_mk_outcome] at hany
        obtain ⟨location, hlength, hat⟩ := ih (v := .null) True.intro hany
        refine ⟨step :: location, congrArg Nat.succ hlength, fun x => ?_⟩
        rw [eq, assign_any_eq limits x new, if_pos hany,
          Value.at?_cons_of_child? (Value.child?_putChild takes _)]
        exact hat x
    · rcases assign_fansOut hfans limits rest v with ⟨-, eq⟩ | ⟨-, eq⟩
      · rw [eq] at hany
        cases hany
      · rw [eq] at hany
        obtain ⟨child, mem, hchild⟩ := exists_any_of_editEach hany
        obtain ⟨haccepts, hchild⟩ := accepted_of_editIf_any hchild
        obtain ⟨location, hlength, hat⟩ := ih (hv.of_mem_children mem) hchild
        obtain ⟨place, hplace⟩ := List.mem_iff_getElem?.1 mem
        obtain ⟨step, hnode⟩ := Value.exists_step hplace
        refine ⟨step :: location, congrArg Nat.succ hlength, fun x => ?_⟩
        -- Another value reaches the same children, so the same child holds it.
        have hanyx : (editEach (editIf segment.accepts (assign limits x rest)) [] 0
            v.children).any := by
          have hsame := assign_any_eq limits new x (segment :: rest) v
          rw [eq, eq] at hsame
          exact hsame ▸ hany
        have hitem : (editEach (editIf segment.accepts (assign limits x rest)) [] 0
            v.children).value[place]? = some (assign limits x rest child).value := by
          rw [editEach_value_of_any hanyx, List.getElem?_map, hplace, Option.map_some,
            editIf_of_accepted haccepts]
        rw [eq, editChildren, Value.at?_cons_of_child?
          (Value.child?_withChildren hv.stepsDiffer (length_editEach _ _) hnode hitem)]
        exact hat x
    · rw [assign_descent] at hany
      cases hany

/-- An assignment makes nothing if it has assigned only in places that were there before. -/
theorem assign_nothingMade {limits : Limits} {v : Value} {segments : List Segment}
    (hv : v.WellFormed)
    (h : ∀ location, (∀ x, (assign limits x segments v).value.at? location = some x) →
      HasPlace v location) (new : Value) :
    NothingMade v new (assign limits new segments v).value := by
  induction segments generalizing v with
  | nil => exact .of_assigned v new
  | cons segment rest ih =>
    obtain hsingle | hfans | rfl := segment.cases_kind
    · cases Segment.entry hsingle limits rest v with
      | closed outcome idle none eq =>
        rw [eq]
        exact .refl v new
      | present step child here eq =>
        have hchild := child?_of_choose hsingle here
        rw [eq]
        refine NothingMade.putChild (ih (hv.of_child? hchild) ?_) hchild
        intro location hat
        refine HasPlace.of_cons (h (step :: location) fun x => ?_) hchild
        rw [eq, Value.at?_cons_of_child? (Value.child?_putChild (Value.takes_of_child? hchild) _)]
        exact hat x
      | missing step none absent takes reaches eq =>
        rw [eq]
        cases hany : (assign limits new rest .null).any with
        | false => exact .refl v new
        | true =>
          -- Somewhere below the new child the value is assigned, so that the child is the value.
          obtain ⟨location, hlength, hat⟩ := exists_assigned_of_any (v := .null) True.intro hany
          obtain ⟨rfl, name, members, rfl, rfl⟩ :=
            HasPlace.of_absent (h (step :: location) fun x => by
              rw [eq, assign_any_eq limits x new, if_pos hany,
                Value.at?_cons_of_child? (Value.child?_putChild takes _)]
              exact hat x) absent
          obtain rfl := List.eq_nil_of_length_eq_zero hlength.symm
          exact .put name
    · rcases assign_fansOut hfans limits rest v with ⟨-, eq⟩ | ⟨-, eq⟩
      · rw [eq]
        exact .refl v new
      · rw [eq]
        have same (x y child : Value) :
            (editIf segment.accepts (assign limits x rest) child).outcome
              = (editIf segment.accepts (assign limits y rest) child).outcome :=
          editIf_outcome_congr (assign_outcome_eq limits x y rest) segment.accepts child
        obtain ⟨reached, hreached⟩ := exists_editEach_getElem? same v.children
        refine .withChildren hv.stepsDiffer (length_editEach _ _) ?_
        intro place old item hold hitem
        rw [hreached new place old hold, Option.some.injEq] at hitem
        subst hitem
        split
        · next hplace =>
          cases haccepts : segment.accepts old with
          | false =>
            rw [editIf_of_passed_over haccepts]
            exact .refl old new
          | true =>
            rw [editIf_of_accepted haccepts]
            obtain ⟨step, hnode⟩ := Value.exists_step hold
            refine ih (hv.of_mem_children (List.mem_of_getElem? hold)) ?_
            intro location hat
            refine HasPlace.of_cons (h (step :: location) fun x => ?_)
              (Value.child?_of_mem_childNodes hv.stepsDiffer (List.mem_of_getElem? hnode))
            have hitem := hreached x place old hold
            rw [if_pos hplace, editIf_of_accepted haccepts] at hitem
            rw [eq, editChildren, Value.at?_cons_of_child?
              (Value.child?_withChildren hv.stepsDiffer (length_editEach _ _) hnode hitem)]
            exact hat x
        · exact .refl old new
    · rw [assign_descent]
      exact .refl v new

/-! ### Whole calls -/

/-- The call assigns at the location: the value stands there afterwards, whatever value it is. -/
def Path.AssignsAt (path : Path) (limits : Limits) (root : Value) (location : Location) : Prop :=
  ∀ new, (path.set limits root new).value.at? location = some new

/-- A call to assign, whether it fails or not, leaves nothing behind that it made, no container and
no longer array, exactly if every location at which it has assigned was there before, or is that
of a member of an object that was there before. -/
theorem Path.set_nothingMade_iff {root : Value} (hroot : root.WellFormed) (path : Path)
    (limits : Limits) (new : Value) :
    NothingMade root new (path.set limits root new).value ↔
      ∀ location, path.AssignsAt limits root location → HasPlace root location := by
  constructor
  · intro h location hassigns
    exact h.hasPlace (hassigns new)
  · intro h
    obtain ⟨e, -, eq⟩ | ⟨-, -, eq⟩ := path.set_cases limits root
    · rw [eq]
      exact .refl root new
    · rw [eq, Edited.finish_value]
      refine assign_nothingMade hroot ?_ new
      intro location hat
      refine h location fun x => ?_
      rw [eq, Edited.finish_value]
      exact hat x

/-- The second child refuses the path, after the member of the first was assigned; it was there
before, and nothing was made. -/
theorem Path.set_nothingMade_member :
    ∃ path : Path, ∃ root : Value, root.WellFormed ∧
      (path.set ⟨0, 0, 0⟩ root (.bool true)).outcome
        = .error (.typeMismatch (.property "a") .string) ∧
      path.AssignsAt ⟨0, 0, 0⟩ root [.item 0, .key "a"] ∧
      NothingMade root (.bool true) (path.set ⟨0, 0, 0⟩ root (.bool true)).value := by
  have hroot : (Value.array [.object [("a", .null)], .string ""]).WellFormed := by
    simp [Members.keys]
  refine ⟨⟨"$[*].a", [.wildcard, .property "a"]⟩, .array [.object [("a", .null)], .string ""],
    hroot, rfl, fun _ => rfl, (Path.set_nothingMade_iff hroot _ _ _).2 ?_⟩
  -- With a null assigned the document is what it was, so every such location was there.
  exact fun location hassigns => .inl ⟨.null, hassigns .null⟩

/-- The container made in the first child stays, although the call fails at the second. -/
theorem Path.exists_set_made :
    ∃ path : Path, ∃ root : Value, root.WellFormed ∧
      (path.set ⟨0, 0, 0⟩ root (.bool true)).outcome
        = .error (.typeMismatch (.property "a") .string) ∧
      ¬NothingMade root (.bool true) (path.set ⟨0, 0, 0⟩ root (.bool true)).value := by
  refine ⟨⟨"$[*].a.b", [.wildcard, .property "a", .property "b"]⟩,
    .array [.object [], .string ""], ?_, rfl, ?_⟩
  · simp [Members.keys]
  · intro h
    obtain ⟨inner, hinner⟩ | ⟨old, hold, -⟩ :=
      h [.item 0, .key "a"] (.object [("b", .bool true)]) rfl (.inr rfl)
    · cases inner with
      | nil => cases hinner
      | cons step inner => cases hinner
    · cases hold

end JsonDoc
