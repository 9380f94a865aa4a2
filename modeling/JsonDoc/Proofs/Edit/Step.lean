import JsonDoc.Edit.Assign
import JsonDoc.Proofs.Edit.Each

/-!
# `JsonDoc.Proofs.Edit.Step`: what one segment of an assignment does

`assign` says what one segment does by cases on the value at hand, a null in between. The lemmas
here say it once for all values and for every value that might be assigned, so that the
inductions over the segments that follow never look at a container again.

* `Segment.entry`: a segment that leads to one child at most is closed, leads to a child that is
  there, or to one that is missing and is made if something is assigned below it.
* `assign_fansOut`: a wildcard or filter refuses a scalar, and edits the children of anything
  else.
* `assign_descent`: a descent is refused.

From these follows what does not depend on the value assigned, `assign_outcome_eq`.
-/

set_option autoImplicit false

namespace JsonDoc

/-! ### Kinds of segments -/

/-- The segment leads to one child at most. -/
def Segment.single : Segment → Bool
  | property _ => true
  | index _ => true
  | _ => false

/-- The segment leads to all children, or to those that satisfy a condition. -/
def Segment.fansOut : Segment → Bool
  | wildcard => true
  | filter _ => true
  | _ => false

/-- The children that a segment that fans out leads to. -/
def Segment.accepts : Segment → Value → Bool
  | filter condition, child => condition.holds child
  | _, _ => true

/-! ### The child that a segment leads to -/

/-- A property leads to the member with its name. -/
theorem choose_property {name : String} {v child : Value} (h : v.child? (.key name) = some child) :
    (Segment.property name).choose v = [(.key name, child)] := by
  rw [Segment.choose, h]

/-- An index leads to the item at the place it resolves to. -/
theorem choose_index {i : Int} {items : List Value} {place : Nat} {child : Value}
    (hplace : resolveIndex items.length i = some place) (hitem : items[place]? = some child) :
    (Segment.index i).choose (.array items) = [(.item place, child)] := by
  simp only [Segment.choose, hplace, hitem]

/-- The two ways in which a segment leads to one child. -/
theorem cases_of_choose {segment : Segment} (h : segment.single) {v child : Value} {step : Step}
    (hchoose : segment.choose v = [(step, child)]) :
    (∃ name, segment = .property name ∧ step = .key name ∧ v.child? step = some child) ∨
      ∃ i items place, segment = .index i ∧ v = .array items ∧ step = .item place ∧
        resolveIndex items.length i = some place ∧ items[place]? = some child := by
  cases segment with
  | property name =>
    rw [Segment.choose] at hchoose
    split at hchoose
    · next hchild =>
      cases hchoose
      exact .inl ⟨name, rfl, rfl, hchild⟩
    · cases hchoose
  | index i =>
    rw [Segment.choose.eq_def] at hchoose
    dsimp only at hchoose
    split at hchoose
    · next items =>
      split at hchoose
      · next place hplace =>
        split at hchoose
        · next hitem =>
          cases hchoose
          exact .inr ⟨i, items, place, rfl, rfl, rfl, hplace, hitem⟩
        · cases hchoose
      · cases hchoose
    · cases hchoose
  | _ => cases h

/-- The child that a segment leads to is the one under the step beside it. -/
theorem child?_of_choose {segment : Segment} (h : segment.single) {v child : Value} {step : Step}
    (hchoose : segment.choose v = [(step, child)]) : v.child? step = some child := by
  obtain ⟨name, -, -, hchild⟩ | ⟨i, items, place, -, rfl, rfl, -, hitem⟩ :=
    cases_of_choose h hchoose
  · exact hchild
  · exact hitem

/-- A segment that leads to a child leads to what is put in its place. -/
theorem choose_putChild {segment : Segment} (h : segment.single) {v child : Value} {step : Step}
    (hchoose : segment.choose v = [(step, child)]) (new : Value) :
    segment.choose (v.putChild step new) = [(step, new)] := by
  obtain ⟨name, rfl, rfl, hchild⟩ | ⟨i, items, place, rfl, rfl, rfl, hplace, hitem⟩ :=
    cases_of_choose h hchoose
  · exact choose_property (Value.child?_putChild (Value.takes_of_child? hchild) new)
  · obtain ⟨lt, -⟩ := List.getElem?_eq_some_iff.1 hitem
    rw [Value.putChild, if_pos lt]
    refine choose_index ?_ (List.getElem?_set_self lt)
    rwa [List.length_set]

/-- An index that lies beyond the end of an array is the same place in every array. -/
theorem resolveIndex_beyond {length place : Nat} {i : Int} (h : resolveIndex length i = some place)
    (beyond : length ≤ place) (other : Nat) : resolveIndex other i = some place := by
  rw [resolveIndex] at h ⊢
  split at h
  · next nonneg =>
    rw [if_pos nonneg]
    exact h
  · split at h
    · cases h
      omega
    · cases h

/-! ### One segment -/

/-- The outcome at a node where nothing can be assigned: there is no child, the segment does not
apply, or its index is outside the array. -/
inductive Idle : Except Error Nat → Prop where
  | none : Idle (.ok 0)
  | mismatch (segment : Segment) (v : Value) : Idle (.error (mismatch segment v))
  | outside (cause : OutOfBounds) : Idle (.error (.outOfBounds cause))

/-- What an assignment does at a node where the segment leads to one child at most. What it does
is told for all values that might be assigned at once. -/
inductive Entry (limits : Limits) (segment : Segment) (rest : List Segment) (v : Value) : Prop where
  /-- There is no child, and none may be made. -/
  | closed (outcome : Except Error Nat) (idle : Idle outcome) (none : segment.choose v = [])
      (eq : ∀ new, assign limits new (segment :: rest) v = ⟨v, outcome⟩)
  /-- The assignment goes on in the child. -/
  | present (step : Step) (child : Value) (here : segment.choose v = [(step, child)])
      (eq : ∀ new, assign limits new (segment :: rest) v =
        ⟨v.putChild step (assign limits new rest child).value,
          (assign limits new rest child).outcome⟩)
  /-- The assignment goes on in a null, which becomes a child if anything was assigned in it. -/
  | missing (step : Step) (none : segment.choose v = []) (absent : v.child? step = .none)
      (takes : v.Takes step)
      (reaches : ∀ child, segment.choose (v.putChild step child) = [(step, child)])
      (eq : ∀ new, assign limits new (segment :: rest) v =
        ⟨if (assign limits new rest .null).any then
            v.putChild step (assign limits new rest .null).value else v,
          (assign limits new rest .null).outcome⟩)

/-- At the end of the path the value is assigned. -/
theorem assign_nil (limits : Limits) (new v : Value) : assign limits new [] v = ⟨new, .ok 1⟩ := rfl

/-- Anything but a null is assigned in as it is; a null is turned into a container first. -/
theorem assign_cons_of_ne_null {v : Value} (h : v ≠ .null) (limits : Limits) (new : Value)
    (segment : Segment) (rest : List Segment) :
    assign limits new (segment :: rest) v =
      assignStep (assign limits new rest) (mayCreate rest) limits segment v := by
  rw [assign.eq_def]
  cases v with
  | null => exact absurd rfl h
  | _ => rfl

/-- A segment does not apply to a value of another kind. -/
theorem Entry.refused {limits : Limits} {segment : Segment} {rest : List Segment} {v : Value}
    (h : v ≠ .null) (none : segment.choose v = [])
    (eq : ∀ edit create,
      assignStep edit create limits segment v = ⟨v, .error (JsonDoc.mismatch segment v)⟩) :
    Entry limits segment rest v := by
  refine .closed _ (.mismatch segment v) none ?_
  intro new
  rw [assign_cons_of_ne_null h, eq]

/-- Whether a node was reached is told by the outcome alone. -/
theorem Edited.any_mk_outcome (v : Value) (edited : Edited Value Nat) :
    (⟨v, edited.outcome⟩ : Edited Value Nat).any = edited.any := rfl

/-- The entry of a property: an object has the member or may get it, and anything else is a
mismatch. -/
theorem Entry.property (limits : Limits) (name : String) (rest : List Segment) {v : Value}
    (h : v ≠ .null) : Entry limits (.property name) rest v := by
  cases v with
  | null => exact absurd rfl h
  | object members =>
    cases hchild : Members.get? members name with
    | some child =>
      refine .present (.key name) child (choose_property hchild) ?_
      intro new
      rw [assign_cons_of_ne_null h, assignStep, assignMember, hchild]
      rfl
    | none =>
      have hnone : (Segment.property name).choose (.object members) = [] := by
        rw [Segment.choose, Value.child?, hchild]
      cases hcreate : mayCreate rest with
      | false =>
        refine .closed (.ok 0) .none hnone ?_
        intro new
        rw [assign_cons_of_ne_null h, assignStep, assignMember, hchild, hcreate]
        rfl
      | true =>
        have takes : (Value.object members).Takes (.key name) := True.intro
        -- The member may be made, and is found under its name once it is.
        refine .missing (.key name) hnone hchild takes ?_ ?_
        · intro child
          exact choose_property (Value.child?_putChild takes child)
        · intro new
          rw [assign_cons_of_ne_null h, assignStep, assignMember, hchild, hcreate]
          rfl
  | _ => exact .refused h rfl fun _ _ => rfl

/-- The entry of an index: an array has the item, may be lengthened up to it as far as the limits
go, or is refused; anything else is a mismatch. -/
theorem Entry.index (limits : Limits) (i : Int) (rest : List Segment) {v : Value} (h : v ≠ .null) :
    Entry limits (.index i) rest v := by
  cases v with
  | null => exact absurd rfl h
  | array items =>
    cases hplace : resolveIndex items.length i with
    | none =>
      refine .closed _ (.outside ⟨i, items.length⟩) (by simp only [Segment.choose, hplace]) ?_
      intro new
      rw [assign_cons_of_ne_null h]
      simp only [assignStep, assignItem, hplace]
    | some place =>
      cases hitem : items[place]? with
      | some child =>
        obtain ⟨lt, -⟩ := List.getElem?_eq_some_iff.1 hitem
        refine .present (.item place) child (choose_index hplace hitem) ?_
        intro new
        rw [assign_cons_of_ne_null h, Value.putChild, if_pos lt]
        simp only [assignStep, assignItem, hplace, hitem]
      | none =>
        have beyond : items.length ≤ place := List.getElem?_eq_none_iff.1 hitem
        have hnone : (Segment.index i).choose (.array items) = [] := by
          simp only [Segment.choose, hplace, hitem]
        have takes : (Value.array items).Takes (.item place) := True.intro
        have reaches (child : Value) : (Segment.index i).choose
            ((Value.array items).putChild (.item place) child) = [(.item place, child)] := by
          have hfound := Value.child?_putChild takes child
          rw [Value.putChild] at hfound ⊢
          exact choose_index (resolveIndex_beyond hplace beyond _) hfound
        cases hcreate : mayCreate rest with
        | false =>
          refine .closed _ .none hnone ?_
          intro new
          rw [assign_cons_of_ne_null h]
          simp only [assignStep, assignItem, hplace, hitem, hcreate]
          rfl
        | true =>
          cases hgrowth : limits.refuses items.length place with
          | true =>
            refine .closed _ (.outside ⟨i, items.length⟩) hnone ?_
            intro new
            rw [assign_cons_of_ne_null h]
            simp only [assignStep, assignItem, hplace, hitem, hcreate, hgrowth]
            rfl
          | false =>
            refine .missing (.item place) hnone hitem takes reaches ?_
            intro new
            rw [assign_cons_of_ne_null h, Value.putChild, if_neg (Nat.not_lt.2 beyond)]
            simp only [assignStep, assignItem, hplace, hitem, hcreate, hgrowth]
            rfl
  | _ => exact .refused h rfl fun _ _ => rfl

/-- Where nothing could be assigned no node was reached. -/
theorem Idle.any_eq_false {outcome : Except Error Nat} (h : Idle outcome) (v : Value) :
    (⟨v, outcome⟩ : Edited Value Nat).any = false := by
  cases h <;> rfl

/-- The container made for a property or an index is not a null. -/
theorem containerFor_ne_null {segment : Segment} (h : segment.single) :
    containerFor segment ≠ .null := by
  cases segment with
  | property => nofun
  | index => nofun
  | _ => cases h

/-- In a null the assignment tries the container that the segment applies to, and keeps it if
something was assigned. -/
theorem assign_null {segment : Segment} (h : segment.single) (limits : Limits) (new : Value)
    (rest : List Segment) :
    assign limits new (segment :: rest) .null =
      if (assign limits new (segment :: rest) (containerFor segment)).any then
        assign limits new (segment :: rest) (containerFor segment)
      else ⟨.null, (assign limits new (segment :: rest) (containerFor segment)).outcome⟩ := by
  rw [assign_cons_of_ne_null (containerFor_ne_null h), assign]

/-- In a null it is as in the empty container that the segment applies to. -/
theorem Entry.null {limits : Limits} {segment : Segment} {rest : List Segment} (h : segment.single)
    (entry : Entry limits segment rest (containerFor segment)) :
    Entry limits segment rest .null := by
  have hnone : segment.choose .null = [] := by
    cases segment with
    | property => rfl
    | index => rfl
    | _ => cases h
  cases entry with
  | closed outcome idle none eq =>
    refine .closed outcome idle hnone ?_
    intro new
    rw [assign_null h, eq, idle.any_eq_false]
    rfl
  | present step child here eq =>
    -- The container is empty.
    have hchild := child?_of_choose h here
    cases segment with
    | property => cases step <;> cases hchild
    | index => cases step <;> cases hchild
    | _ => cases h
  | missing step none absent takes reaches eq =>
    have hput (child : Value) :
        (containerFor segment).putChild step child = Value.null.putChild step child := by
      cases segment with
      | property => cases step with
        | key => rfl
        | item => exact takes.elim
      | index => cases step with
        | key => exact takes.elim
        | item place => simp [containerFor, Value.putChild]
      | _ => cases h
    refine .missing step hnone (by cases step <;> rfl) True.intro ?_ ?_
    · intro child
      rw [← hput]
      exact reaches child
    · intro new
      rw [assign_null h, eq, ← hput, Edited.any_mk_outcome]
      cases (assign limits new rest .null).any <;> rfl

/-- Every segment for one child has an entry at every value. -/
theorem Segment.entry {segment : Segment} (h : segment.single) (limits : Limits)
    (rest : List Segment) (v : Value) : Entry limits segment rest v := by
  have hcontainer : ∀ {w : Value}, w ≠ .null → Entry limits segment rest w := by
    intro w hw
    cases segment with
    | property name => exact Entry.property limits name rest hw
    | index i => exact Entry.index limits i rest hw
    | _ => cases h
  by_cases hv : v = .null
  · subst hv
    exact Entry.null h (hcontainer (containerFor_ne_null h))
  · exact hcontainer hv

/-! ### Segments that fan out -/

/-- A segment that fans out leads to the children that it accepts. -/
theorem choose_fansOut {segment : Segment} (h : segment.fansOut) (v : Value) :
    segment.choose v = v.childNodes.filter fun node => segment.accepts node.2 := by
  cases segment with
  | wildcard => exact (List.filter_eq_self.2 fun _ _ => rfl).symm
  | filter condition => rfl
  | _ => cases h

/-- An assignment along a segment that fans out edits the children that it accepts. -/
theorem assignStep_fansOut {segment : Segment} (h : segment.fansOut)
    (edit : Value → Edited Value Nat) (create : Bool) (limits : Limits) (v : Value) :
    assignStep edit create limits segment v = assignChildren edit segment segment.accepts v := by
  cases segment with
  | wildcard => rfl
  | filter => rfl
  | _ => cases h

/-- The value has children, or it is a null, which stands for an empty container. -/
def Value.Divisible (v : Value) : Prop := v.kind = .null ∨ v.kind = .array ∨ v.kind = .object

/-- New children leave a container a container. -/
theorem Value.Divisible.withChildren {v : Value} (h : v.Divisible) (items : List Value) :
    (v.withChildren items).Divisible := by
  rwa [Divisible, Value.kind_withChildren]

/-- What an assignment does at a node where the segment fans out: it refuses a scalar, and edits
the children of a container. A null has none. -/
theorem assign_fansOut {segment : Segment} (h : segment.fansOut) (limits : Limits)
    (rest : List Segment) (v : Value) :
    (¬v.Divisible ∧ ∀ new, assign limits new (segment :: rest) v
        = ⟨v, .error (mismatch segment v)⟩) ∨
      v.Divisible ∧ ∀ new, assign limits new (segment :: rest) v
        = editChildren (editIf segment.accepts (assign limits new rest)) v := by
  by_cases hnull : v = .null
  · subst hnull
    -- No container is made for a wildcard or filter, and a null has no children to edit.
    have hcontainer : containerFor segment = .null := by
      cases segment with
      | wildcard => rfl
      | filter => rfl
      | _ => cases h
    refine .inr ⟨.inl rfl, fun new => ?_⟩
    rw [assign, hcontainer, assignStep_fansOut h]
    rfl
  · have heq (new : Value) : assign limits new (segment :: rest) v
        = assignChildren (assign limits new rest) segment segment.accepts v := by
      rw [assign_cons_of_ne_null hnull, assignStep_fansOut h]
    cases v with
    | null => exact absurd rfl hnull
    | array => exact .inr ⟨.inr (.inl rfl), heq⟩
    | object => exact .inr ⟨.inr (.inr rfl), heq⟩
    | _ => exact .inl ⟨by simp [Value.Divisible, Value.kind], heq⟩

/-- No value can be assigned through a descent. -/
theorem assign_descent (limits : Limits) (new : Value) (rest : List Segment) (v : Value) :
    assign limits new (.descent :: rest) v = ⟨v, .error (.unsupportedMutation .descent)⟩ := by
  cases v <;> rfl

/-! ### Whole paths -/

/-- The three kinds of segments, by which assignments and removals are told apart. -/
theorem Segment.cases_kind (segment : Segment) :
    segment.single ∨ segment.fansOut ∨ segment = .descent := by
  cases segment with
  | property => exact .inl rfl
  | index => exact .inl rfl
  | wildcard => exact .inr (.inl rfl)
  | filter => exact .inr (.inl rfl)
  | descent => exact .inr (.inr rfl)

/-- What comes of an assignment does not depend on the value assigned. -/
theorem assign_outcome_eq (limits : Limits) (new new' : Value) (segments : List Segment)
    (v : Value) :
    (assign limits new segments v).outcome = (assign limits new' segments v).outcome := by
  induction segments generalizing v with
  | nil => rfl
  | cons segment rest ih =>
    obtain hsingle | hfans | rfl := segment.cases_kind
    · cases Segment.entry hsingle limits rest v with
      | closed outcome idle none eq => rw [eq, eq]
      | present step child here eq => rw [eq, eq, ih]
      | missing step none absent takes reaches eq => rw [eq, eq, ih]
    · rcases assign_fansOut hfans limits rest v with ⟨-, eq⟩ | ⟨-, eq⟩
      · rw [eq, eq]
      · rw [eq, eq]
        exact editEach_outcome_congr (editIf_outcome_congr ih segment.accepts) v.children
    · rw [assign_descent, assign_descent]

/-- Whether an assignment reaches a node does not depend on the value assigned. -/
theorem assign_any_eq (limits : Limits) (new new' : Value) (segments : List Segment) (v : Value) :
    (assign limits new segments v).any = (assign limits new' segments v).any := by
  rw [Edited.any, assign_outcome_eq limits new new', Edited.any]

/-- A step never reports that nothing was found; only the whole call does. -/
theorem assign_ne_notFound (limits : Limits) (new : Value) (segments : List Segment) (v : Value)
    (name : String) : (assign limits new segments v).outcome ≠ .error (.notFound name) := by
  induction segments generalizing v with
  | nil => nofun
  | cons segment rest ih =>
    obtain hsingle | hfans | rfl := segment.cases_kind
    · cases Segment.entry hsingle limits rest v with
      | closed outcome idle none eq =>
        rw [eq]
        cases idle <;> nofun
      | present step child here eq =>
        rw [eq]
        exact ih child
      | missing step none absent takes reaches eq =>
        rw [eq]
        exact ih .null
    · rcases assign_fansOut hfans limits rest v with ⟨-, eq⟩ | ⟨-, eq⟩
      · rw [eq]
        nofun
      · rw [eq]
        exact editChildren_ne_error (editIf_ne_error ih segment.accepts) v
    · rw [assign_descent]
      nofun

/-- A call to set in a document that is not a null, along any path but the one of the root itself,
is an assignment along its segments. -/
theorem Path.set_eq {path : Path} {root : Value} (hpath : path.segments ≠ []) (hroot : root ≠ .null)
    (limits : Limits) (new : Value) :
    path.set limits root new
      = (assign limits new path.segments root).finish path := by
  rw [set]
  cases hsegments : path.segments with
  | nil => exact absurd hsegments hpath
  | cons segment rest =>
    cases root with
    | null => exact absurd rfl hroot
    | _ => rfl

/-- A call to assign is refused at the root, where it changes nothing, or is an assignment along
the segments. -/
theorem Path.set_cases (path : Path) (limits : Limits) (root : Value) :
    (∃ e, (∀ name, e ≠ .notFound name) ∧ ∀ new, path.set limits root new = ⟨root, .error e⟩) ∨
      path.segments ≠ [] ∧ root ≠ .null ∧ ∀ new, path.set limits root new
        = (assign limits new path.segments root).finish path := by
  cases hsegments : path.segments with
  | nil => exact .inl ⟨.rootMutation, nofun, fun new => by rw [set, hsegments]⟩
  | cons segment rest =>
    by_cases hroot : root = .null
    · subst hroot
      exact .inl ⟨mismatch segment .null, nofun, fun new => by rw [set, hsegments]⟩
    · refine .inr ⟨nofun, hroot, fun new => ?_⟩
      rw [← hsegments]
      exact Path.set_eq (by rw [hsegments]; nofun) hroot limits new

end JsonDoc
