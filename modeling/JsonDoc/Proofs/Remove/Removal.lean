import JsonDoc.Proofs.Edit.Lead
import JsonDoc.Proofs.Remove.Pruned
import JsonDoc.Proofs.Select.Address

/-!
# `JsonDoc.Proofs.Remove.Removal`: what a removal does, segment by segment

`remove` has one way of its own for each kind of segment: it erases a member, erases an item, keeps
the children that do not satisfy a condition, or puts edited children back into their places.
`Segment.revise` says all of this at once: the children that the segment leads to are dropped, or
replaced by what the removal behind the segment leaves of them, and the others stay.

`Removal` is a run of `remove` that succeeds, told in these terms, with no outcomes to pass on.
`removal_of_ok` reads it off the run once, and whatever holds of removals is an induction on it.
The first of these is that a removal leaves the value without some of its parts
(`Removal.pruned`).
-/

set_option autoImplicit false

namespace JsonDoc

/-! ### The children that a segment leads to -/

/-- The segment leads to this child of the value; a descent leads to all. -/
def Segment.takes (segment : Segment) (v : Value) (node : Step × Value) : Bool :=
  match segment with
  | property name => node.1 = .key name
  | index i => (resolveIndex v.children.length i).any fun place => node.1 = .item place
  | filter condition => condition.holds node.2
  | _ => true

/-- Where the first components differ, one of them is found once. -/
theorem filter_fst_eq_singleton {α β : Type} [DecidableEq α] {nodes : List (α × β)} {a : α} {b : β}
    (nodup : (nodes.map Prod.fst).Nodup) (h : (a, b) ∈ nodes) :
    nodes.filter (fun node => decide (node.1 = a)) = [(a, b)] := by
  induction nodes with
  | nil => cases h
  | cons node rest ih =>
    obtain ⟨absent, nodup⟩ := List.nodup_cons.1 nodup
    rcases List.mem_cons.1 h with rfl | h
    · rw [List.filter_cons_of_pos (by simp), List.filter_eq_nil_iff.2]
      rintro other mem heq
      exact absent (List.mem_map.2 ⟨other, mem, by simpa using heq⟩)
    · have hne : node.1 ≠ a := by
        rintro rfl
        exact absent (List.mem_map.2 ⟨_, h, rfl⟩)
      rw [List.filter_cons_of_neg (by simpa using hne), ih nodup h]

/-- The child under a step, found by its step among all. -/
theorem Value.filter_childNodes {v : Value} (differ : v.StepsDiffer) (step : Step) :
    v.childNodes.filter (fun node => decide (node.1 = step))
      = ((v.child? step).map (step, ·)).toList := by
  cases hchild : v.child? step with
  | some child => exact filter_fst_eq_singleton differ (mem_childNodes_of_child? hchild)
  | none =>
    refine List.filter_eq_nil_iff.2 fun node mem heq => ?_
    obtain rfl : node.1 = step := by simpa using heq
    rw [child?_of_mem_childNodes differ mem] at hchild
    cases hchild

/-- What a segment leads to, told child by child. The steps differ, so that a property and an index
take one child at most. -/
theorem choose_eq_filter (segment : Segment) {v : Value} (differ : v.StepsDiffer) :
    segment.choose v = v.childNodes.filter (segment.takes v) := by
  cases segment with
  | property name =>
    have hfilter := Value.filter_childNodes differ (.key name)
    rw [Segment.choose]
    refine Eq.trans ?_ hfilter.symm
    cases v.child? (.key name) <;> rfl
  | index i =>
    cases v with
    | array items =>
      cases hplace : resolveIndex items.length i with
      | none => simp [Segment.choose, Segment.takes, Value.children, hplace]
      | some place =>
        have htakes : (Segment.index i).takes (.array items)
            = fun node => decide (node.1 = .item place) := by
          funext node
          rw [Segment.takes, Value.children, hplace, Option.any_some]
        rw [htakes, Value.filter_childNodes differ, Value.child?]
        simp only [Segment.choose, hplace]
        cases items[place]? <;> rfl
    | object members =>
      -- The steps to members are keys.
      refine (List.filter_eq_nil_iff.2 fun node mem htakes => ?_).symm
      obtain ⟨m, -, rfl⟩ := List.mem_map.1 mem
      simp [Segment.takes] at htakes
    | _ => rfl
  | wildcard => exact (List.filter_eq_self.2 fun _ _ => rfl).symm
  | descent => exact (List.filter_eq_self.2 fun _ _ => rfl).symm
  | filter condition => rfl

/-- A child is chosen if the segment takes it. -/
theorem mem_choose {segment : Segment} {v : Value} (differ : v.StepsDiffer) {node : Step × Value} :
    node ∈ segment.choose v ↔ node ∈ v.childNodes ∧ segment.takes v node = true := by
  rw [choose_eq_filter segment differ, List.mem_filter]

/-- The value with each child that the segment leads to replaced by what `f` makes of it, or
dropped where that is nothing. -/
def Segment.revise (segment : Segment) (f : Value → Option Value) (v : Value) : Value :=
  v.revise fun node => if segment.takes v node then f node.2 else some node.2

/-- Where a segment leads to nothing nothing is revised. -/
theorem revise_of_choose_nil {segment : Segment} {v : Value} (differ : v.StepsDiffer)
    (h : segment.choose v = []) (f : Value → Option Value) : segment.revise f v = v := by
  refine (Value.revise_congr fun node mem => ?_).trans v.revise_self
  rw [if_neg]
  intro htakes
  have hmem := (mem_choose differ).2 ⟨mem, htakes⟩
  rw [h] at hmem
  cases hmem

/-- A segment that leads to one child leads to the only one under that step. -/
theorem revise_of_choose {segment : Segment} {v child : Value} {step : Step}
    (differ : v.StepsDiffer) (h : segment.choose v = [(step, child)]) (f : Value → Option Value) :
    segment.revise f v = v.revise fun node => if node.1 = step then f child else some node.2 := by
  have hchild : (step, child) ∈ v.childNodes := ((mem_choose differ).1 (h ▸ List.mem_cons_self)).1
  refine Value.revise_congr fun node mem => ?_
  have hiff : segment.takes v node = true ↔ node.1 = step := by
    rw [← and_iff_right (b := segment.takes v node = true) mem, ← mem_choose differ, h,
      List.mem_singleton]
    constructor
    · rintro rfl
      rfl
    · intro heq
      exact List.inj_on_of_nodup_map differ mem hchild heq
  by_cases hstep : node.1 = step
  · rw [if_pos (hiff.2 hstep), if_pos hstep, List.inj_on_of_nodup_map differ mem hchild hstep]
  · rw [if_neg (hiff.not.2 hstep), if_neg hstep]

/-! ### The last segment -/

/-- Erasing a key, member by member. -/
theorem Members.erase_eq_filterMap {α : Type} {members : Members α} (key : String)
    (nodup : (keys members).Nodup) :
    erase members key = members.filterMap fun m => if m.1 = key then none else some m := by
  induction members with
  | nil => rfl
  | cons m rest ih =>
    obtain ⟨absent, nodup⟩ := List.nodup_cons.1 nodup
    by_cases hkey : m.1 = key
    · have hrest : ∀ other ∈ rest, (if other.1 = key then none else some other) = some other := by
        intro other mem
        rw [if_neg]
        rintro rfl
        exact absent (List.mem_map.2 ⟨other, mem, hkey.symm⟩)
      rw [erase, List.eraseP_cons_of_pos (by simpa using hkey),
        List.filterMap_cons_none (by rw [if_pos hkey]), List.filterMap_congr hrest,
        List.filterMap_some]
    · rw [erase, List.eraseP_cons_of_neg (by simpa using hkey),
        List.filterMap_cons_some (by rw [if_neg hkey])]
      exact congrArg (m :: ·) (ih nodup)

/-- No item behind a place is at that place. -/
theorem filterMap_zipIdx_of_lt {α : Type} {first place : Nat} (lt : place < first)
    (f : α → Option α) (items : List α) :
    ((items.zipIdx first).filterMap fun item => if item.2 = place then f item.1 else some item.1)
      = items := by
  have hsome : ((items.zipIdx first).filterMap fun item =>
      if item.2 = place then f item.1 else some item.1)
      = (items.zipIdx first).filterMap (some ∘ Prod.fst) := by
    refine List.filterMap_congr fun item mem => ?_
    have hle := List.le_snd_of_mem_zipIdx mem
    rw [if_neg (by omega)]
    rfl
  rw [hsome, List.filterMap_eq_map, List.zipIdx_map_fst]

/-- Erasing an item, item by item; the count may start anywhere, for the induction. -/
theorem eraseIdx_eq_filterMap {α : Type} (items : List α) (first place : Nat) :
    items.eraseIdx place = (items.zipIdx first).filterMap fun item =>
      if item.2 = first + place then none else some item.1 := by
  induction items generalizing first place with
  | nil => simp
  | cons item rest ih =>
    rw [List.zipIdx_cons]
    cases place with
    | zero =>
      have hrest := filterMap_zipIdx_of_lt (Nat.lt_succ_self first) (fun _ => none) rest
      rw [List.eraseIdx_cons_zero, List.filterMap_cons_none (by simp), Nat.add_zero, hrest]
    | succ place =>
      rw [List.eraseIdx_cons_succ, List.filterMap_cons_some (b := item) (by simp),
        ih (first + 1) place, show first + 1 + place = first + (place + 1) by omega]

/-- Where a member or item is missing nothing is removed. -/
theorem removeHere_of_choose_nil {segment : Segment} (h : segment.single) {v : Value}
    (hchoose : segment.choose v = []) : removeHere segment v = (v, 0) := by
  cases segment with
  | property name =>
    cases v with
    | object members =>
      rw [removeHere, if_neg]
      intro present
      obtain ⟨child, hchild⟩ := Option.isSome_iff_exists.1 present
      rw [choose_property (v := .object members) hchild] at hchoose
      cases hchoose
    | _ => rfl
  | index i =>
    cases v with
    | array items =>
      rw [removeHere]
      split
      · next place hplace =>
        rw [if_neg]
        intro lt
        rw [choose_index hplace (List.getElem?_eq_getElem lt)] at hchoose
        cases hchoose
      · rfl
    | _ => rfl
  | _ => cases h

/-- Dropping some items and keeping the rest as they are. -/
theorem filter_not_eq_filterMap {α : Type} (p : α → Bool) (items : List α) :
    (items.filter fun item => !p item)
      = items.filterMap fun item => if p item then none else some item := by
  induction items with
  | nil => rfl
  | cons item rest ih =>
    cases h : p item with
    | true => rw [List.filter_cons_of_neg (by simp [h]), List.filterMap_cons_none (by simp [h]), ih]
    | false =>
      rw [List.filter_cons_of_pos (by simp [h]),
        List.filterMap_cons_some (b := item) (by simp [h]), ih]

/-- What is missing after some items are dropped is those items. -/
theorem length_sub_length_filter_not {α : Type} (p : α → Bool) (items : List α) :
    items.length - (items.filter fun item => !p item).length = (items.filter p).length := by
  rw [List.length_eq_length_filter_add p]
  exact Nat.add_sub_cancel_right _ _

/-- As many children satisfy a condition as are listed with their steps. -/
theorem length_filter_childNodes (p : Value → Bool) (v : Value) :
    (v.childNodes.filter fun node => p node.2).length = (v.children.filter p).length := by
  rw [← v.childNodes_map_snd, List.filter_map, List.length_map]
  rfl

/-- A filter that comes last takes out the children that satisfy its condition, and counts them. -/
theorem removeHere_filter (condition : Condition) (v : Value) :
    removeHere (.filter condition) v
      = ((Segment.filter condition).revise (fun _ => none) v,
          ((Segment.filter condition).choose v).length) := by
  rw [Segment.choose, length_filter_childNodes, Segment.revise]
  cases v with
  | array items =>
    rw [removeHere, Value.children, length_sub_length_filter_not, filter_not_eq_filterMap,
      Value.revise, Value.childNodes, List.filterMap_map]
    conv_lhs => rw [← List.zipIdx_map_fst 0 items, List.filterMap_map, List.zipIdx_map_fst]
    rfl
  | object members =>
    rw [removeHere, Members.filterValues, length_sub_length_filter_not, filter_not_eq_filterMap,
      Value.revise, Value.children, Members.values, List.filter_map, List.length_map]
    congr 2
    refine List.filterMap_congr fun m _ => ?_
    rw [Segment.takes]
    split <;> rfl
  | _ => rfl

/-- A segment that fans out and comes last takes out what it leads to, and counts it. -/
theorem removeHere_fansOut {segment : Segment} (h : segment.fansOut) (v : Value) :
    removeHere segment v = (segment.revise (fun _ => none) v, (segment.choose v).length) := by
  cases segment with
  | wildcard =>
    cases v <;> simp [removeHere, Segment.revise, Value.revise, Segment.takes, Segment.choose,
      Value.childNodes]
  | filter condition => exact removeHere_filter condition v
  | _ => cases h

/-- The last segment takes the children out that it leads to. -/
theorem removeHere_eq {segment : Segment} (h : segment ≠ .descent) {v : Value}
    (differ : v.StepsDiffer) :
    removeHere segment v
      = (segment.revise (fun _ => none) v, (segment.choose v).length) := by
  obtain hsingle | hfans | rfl := segment.cases_kind
  · obtain hchoose | ⟨step, child, hchoose⟩ := choose_single hsingle v
    · rw [removeHere_of_choose_nil hsingle hchoose, revise_of_choose_nil differ hchoose, hchoose]
      rfl
    · rw [revise_of_choose differ hchoose, hchoose]
      obtain ⟨name, rfl, rfl, hchild⟩ | ⟨i, items, place, rfl, rfl, rfl, hplace, hitem⟩ :=
        cases_of_choose hsingle hchoose
      · cases v with
        | object members =>
          -- The member is there, and the only one with its key.
          have present : Members.has members name = true := by
            rw [Value.child?] at hchild
            rw [Members.has, hchild]
            rfl
          rw [removeHere, if_pos present,
            Members.erase_eq_filterMap name (Value.stepsDiffer_object.1 differ), Value.revise]
          simp only [Step.key.injEq]
          congr 2
          refine List.filterMap_congr fun m _ => ?_
          split <;> rfl
        | _ => cases hchild
      · obtain ⟨lt, -⟩ := List.getElem?_eq_some_iff.1 hitem
        simp only [removeHere, hplace, if_pos lt]
        rw [eraseIdx_eq_filterMap items 0 place, Value.revise, Value.childNodes, List.filterMap_map]
        simp
  · exact removeHere_fansOut hfans v
  · exact absurd rfl h

/-! ### The segments before the last -/

/-- Replacing an item, item by item. -/
theorem set_eq_filterMap {α : Type} (items : List α) (first place : Nat) (new : α) :
    items.set place new = (items.zipIdx first).filterMap fun item =>
      if item.2 = first + place then some new else some item.1 := by
  induction items generalizing first place with
  | nil => simp
  | cons item rest ih =>
    rw [List.zipIdx_cons]
    cases place with
    | zero =>
      have hrest := filterMap_zipIdx_of_lt (Nat.lt_succ_self first) (fun _ => some new) rest
      rw [List.set_cons_zero, List.filterMap_cons_some (b := new) (by simp), Nat.add_zero, hrest]
    | succ place =>
      rw [List.set_cons_succ, List.filterMap_cons_some (b := item) (by simp), ih (first + 1) place,
        show first + 1 + place = first + (place + 1) by omega]

/-- Replacing the child under a step. -/
theorem Value.putChild_eq_revise {v child : Value} {step : Step} (h : v.child? step = some child)
    (new : Value) :
    v.putChild step new = v.revise fun node => if node.1 = step then some new else some node.2 := by
  rw [child?.eq_def] at h
  split at h
  · next members name =>
    have present : Members.has members name = true := by
      rw [Members.has, h]
      rfl
    rw [putChild, Members.put, if_pos present, revise, ← List.filterMap_eq_map]
    congr 1
    refine List.filterMap_congr fun m _ => ?_
    simp only [Function.comp_apply, Step.key.injEq]
    split <;> rfl
  · next items place =>
    obtain ⟨lt, -⟩ := List.getElem?_eq_some_iff.1 h
    rw [putChild, if_pos lt, set_eq_filterMap items 0 place, revise, childNodes, List.filterMap_map]
    simp
  · cases h

section
variable {limit budget : Nat} {segment : Segment} {rest : List Segment} {v : Value}

/-- A removal along a missing member or item changes nothing and does not fail. -/
theorem remove_of_choose_nil (h : segment.single) (hchoose : segment.choose v = [])
    (hrest : rest ≠ []) : remove limit (segment :: rest) budget v = ⟨v, .ok 0⟩ := by
  rw [remove_cons hrest]
  cases segment with
  | property name =>
    cases v with
    | object members =>
      simp only [removeInMember]
      split
      · next child hchild =>
        rw [choose_property (v := .object members) hchild] at hchoose
        cases hchoose
      · rfl
    | _ => rfl
  | index i =>
    cases v with
    | array items =>
      simp only [removeInItem]
      split
      · next place hplace =>
        split
        · next child hitem =>
          rw [choose_index hplace hitem] at hchoose
          cases hchoose
        · rfl
      · rfl
    | _ => rfl
  | _ => cases h

/-- A segment that fans out takes what it accepts. -/
theorem takes_eq_accepts (h : segment.fansOut) (node : Step × Value) :
    segment.takes v node = segment.accepts node.2 := by
  cases segment with
  | wildcard => rfl
  | filter => rfl
  | _ => cases h

/-- Values that are passed over do not count. -/
theorem sum_count_editIf (choose : Value → Bool) (edit : Value → Edited Value Nat)
    (nodes : List (Step × Value)) :
    ((nodes.map Prod.snd).map fun child => (editIf choose edit child).count).sum
      = ((nodes.filter fun node => choose node.2).map fun node => (edit node.2).count).sum := by
  induction nodes with
  | nil => rfl
  | cons node rest ih =>
    rw [List.map_cons, List.map_cons, List.sum_cons, ih]
    cases h : choose node.2 with
    | true =>
      rw [editIf_of_accepted h, List.filter_cons_of_pos (by simpa using h), List.map_cons,
        List.sum_cons]
    | false =>
      rw [editIf_of_passed_over h, List.filter_cons_of_neg (by simp [h]),
        Edited.count_of_ok (n := 0) rfl, Nat.zero_add]

/-- A removal that succeeds in every child that the segment leads to. -/
theorem remove_cons_of_ok (h : segment ≠ .descent) (hrest : rest ≠ []) (differ : v.StepsDiffer)
    (hok : ∀ node ∈ segment.choose v, (remove limit rest budget node.2).outcome
      = .ok (remove limit rest budget node.2).count) :
    remove limit (segment :: rest) budget v
      = ⟨segment.revise (fun child => some (remove limit rest budget child).value) v,
          .ok ((segment.choose v).map fun node =>
            (remove limit rest budget node.2).count).sum⟩ := by
  obtain hsingle | hfans | rfl := segment.cases_kind
  · obtain hchoose | ⟨step, child, hchoose⟩ := choose_single hsingle v
    · rw [remove_of_choose_nil hsingle hchoose hrest, revise_of_choose_nil differ hchoose, hchoose]
      rfl
    · have hchild := hok (step, child) (by rw [hchoose]; exact List.mem_cons_self)
      rw [remove_of_choose hsingle hchoose limit budget hrest, revise_of_choose differ hchoose,
        Value.putChild_eq_revise (child?_of_choose hsingle hchoose), hchoose, hchild]
      simp
  · -- The run passes over the children that the segment does not take, and succeeds at the
    -- others.
    have heach : ∀ child ∈ v.children,
        (editIf segment.accepts (remove limit rest budget) child).outcome
          = .ok (editIf segment.accepts (remove limit rest budget) child).count := by
      rw [← v.childNodes_map_snd, List.forall_mem_map]
      intro node mem
      cases haccepts : segment.accepts node.2 with
      | true =>
        rw [editIf_of_accepted haccepts]
        exact hok node ((mem_choose differ).2 ⟨mem, by rwa [takes_eq_accepts hfans]⟩)
      | false =>
        rw [editIf_of_passed_over haccepts]
        rfl
    rw [remove_fansOut hfans limit budget hrest, editChildren_of_ok heach, Value.withChildren_map,
      choose_fansOut hfans, ← v.childNodes_map_snd, sum_count_editIf]
    congr 1
    refine Value.revise_congr fun node _ => ?_
    rw [takes_eq_accepts hfans]
    cases haccepts : segment.accepts node.2 with
    | true => rw [editIf_of_accepted haccepts]; rfl
    | false => rw [editIf_of_passed_over haccepts]; rfl
  · exact absurd rfl h

/-- A removal that succeeds does so in every child that the segment leads to. -/
theorem ok_of_remove_cons (h : segment ≠ .descent) (hrest : rest ≠ []) {n : Nat}
    (hok : (remove limit (segment :: rest) budget v).outcome = .ok n) :
    ∀ node ∈ segment.choose v, (remove limit rest budget node.2).outcome
      = .ok (remove limit rest budget node.2).count := by
  intro node mem
  obtain hsingle | hfans | rfl := segment.cases_kind
  · obtain hchoose | ⟨step, child, hchoose⟩ := choose_single hsingle v
    · rw [hchoose] at mem
      cases mem
    · rw [hchoose, List.mem_singleton] at mem
      subst mem
      rw [remove_of_choose hsingle hchoose limit budget hrest] at hok
      exact Edited.ok_count hok
  · rw [remove_fansOut hfans limit budget hrest] at hok
    rw [choose_fansOut hfans, List.mem_filter] at mem
    have hnode := ok_of_editChildren hok node.2 (Value.mem_children_of_mem_childNodes mem.1)
    rwa [editIf_of_accepted mem.2] at hnode
  · exact absurd rfl h

end

/-! ### Removals that succeed -/

/-- The segments lead to parts below a value: there is a last one, and it is no descent. -/
def LeadsBelow : List Segment → Prop
  | [] => False
  | [segment] => segment ≠ .descent
  | _ :: segment :: rest => LeadsBelow (segment :: rest)

/-- Segments that lead below a value are some. -/
theorem LeadsBelow.ne_nil {segments : List Segment} (h : LeadsBelow segments) : segments ≠ [] := by
  rintro rfl
  exact h

/-- A removal that succeeds, with the value that it leaves and the number of nodes removed. -/
inductive Removal : List Segment → (budget : Nat) → Value → (left : Value) → (count : Nat) → Prop
    where
  /-- The last segment takes out the children that it leads to. -/
  | last {segment : Segment} {budget : Nat} {v : Value} : segment ≠ .descent →
      Removal [segment] budget v (segment.revise (fun _ => none) v) (segment.choose v).length
  /-- Another segment goes on in the children that it leads to. -/
  | pass {segment : Segment} {rest : List Segment} {budget : Nat} {v : Value}
      {left : Value → Value} {count : Value → Nat} : segment ≠ .descent → LeadsBelow rest →
      (∀ node ∈ segment.choose v, Removal rest budget node.2 (left node.2) (count node.2)) →
      Removal (segment :: rest) budget v (segment.revise (fun child => some (left child)) v)
        ((segment.choose v).map fun node => count node.2).sum
  /-- A descent removes at the node, and then below it in what is left. -/
  | descend {rest : List Segment} {budget : Nat} {v here : Value} {n : Nat}
      {left : Value → Value} {count : Value → Nat} : LeadsBelow rest →
      Removal rest (budget + 1) v here n →
      (∀ child ∈ here.children,
        Removal (.descent :: rest) budget child (left child) (count child)) →
      Removal (.descent :: rest) (budget + 1) v (here.withChildren (here.children.map left))
        (n + (here.children.map count).sum)

/-- The last segment is a member. -/
def EndsWithMember (segments : List Segment) : Prop :=
  ∃ name, segments.getLast? = some (.property name)

/-- The last segment is the last one of those behind the first as well. -/
theorem EndsWithMember.of_cons {segment : Segment} {rest : List Segment}
    (h : EndsWithMember (segment :: rest)) (hrest : rest ≠ []) : EndsWithMember rest := by
  obtain ⟨next, tail, rfl⟩ := List.exists_cons_of_ne_nil hrest
  rwa [EndsWithMember, List.getLast?_cons_cons] at h

section
variable {shifts : Bool} {segment : Segment} {segments : List Segment} {v left : Value}

/-- The last segment takes out children, and no items if it is a member. -/
theorem prunes_last (hmember : shifts = false → EndsWithMember [segment]) :
    v.Prunes shifts fun node => if segment.takes v node then none else some node.2 where
  child node mem w hw := by
    split at hw
    · cases hw
    · cases hw
      exact .refl shifts node.2
  keeps hshifts node mem i hi := by
    obtain ⟨name, hname⟩ := hmember hshifts
    cases hname
    rw [Segment.takes, hi, if_neg (by simp)]
    exact Option.some_ne_none _

/-- A segment in front goes on in children. -/
theorem prunes_pass {edit : Value → Value} (differ : v.StepsDiffer)
    (h : ∀ node ∈ segment.choose v, node.2.Pruned shifts (edit node.2)) :
    v.Prunes shifts fun node =>
      if segment.takes v node then some (edit node.2) else some node.2 where
  child node mem w hw := by
    split at hw
    · next htakes =>
      cases hw
      exact h node ((mem_choose differ).2 ⟨mem, htakes⟩)
    · cases hw
      exact .refl shifts node.2
  keeps _ node mem i hi := by
    split <;> exact Option.some_ne_none _

/-- A descent goes on in all children. -/
theorem prunes_below {edit : Value → Value}
    (h : ∀ child ∈ v.children, child.Pruned shifts (edit child)) :
    v.Prunes shifts fun node => some (edit node.2) where
  child node mem w hw := by
    cases hw
    exact h node.2 (Value.mem_children_of_mem_childNodes mem)
  keeps _ _ _ _ _ := Option.some_ne_none _

/-- What a removal leaves is the value without some of its parts, and these are no items if the
segments end with a member. -/
theorem Removal.pruned {budget n : Nat} (h : Removal segments budget v left n) (hv : v.WellFormed)
    (hmember : shifts = false → EndsWithMember segments) : v.Pruned shifts left := by
  induction h with
  | last hsegment => exact (prunes_last hmember).pruned hv.stepsDiffer
  | pass hsegment below _ ih =>
    refine (prunes_pass hv.stepsDiffer fun node mem => ?_).pruned hv.stepsDiffer
    exact ih node mem (hv.of_mem_children (mem_children_of_mem_choose mem))
      fun hshifts => (hmember hshifts).of_cons below.ne_nil
  | descend below _ _ ihhere ihbelow =>
    have hpruned := ihhere hv fun hshifts => (hmember hshifts).of_cons below.ne_nil
    have hwf := hpruned.wellFormed hv
    rw [Value.withChildren_map]
    refine hpruned.trans ((prunes_below fun child mem => ?_).pruned hwf.stepsDiffer)
    exact ihbelow child mem (hwf.of_mem_children mem) hmember

/-- What a removal leaves of a well-formed value is well formed, since it is pruned. -/
theorem Removal.wellFormed {budget n : Nat} (h : Removal segments budget v left n)
    (hv : v.WellFormed) : left.WellFormed := by
  have hpruned : v.Pruned true left := h.pruned hv nofun
  exact hpruned.wellFormed hv

end

section
variable {limit : Nat} {edit : Nat → Value → Edited Value Nat} {budget : Nat} {v : Value}

/-- A descent removes at a node first and then below what is left there. -/
theorem removeBelow_succ {n : Nat} (here : (edit (budget + 1) v).outcome = .ok n) :
    removeBelow limit edit (budget + 1) v
      = let below := editChildren (removeBelow limit edit budget) (edit (budget + 1) v).value
        ⟨below.value, countMore n below.outcome⟩ := by
  rw [removeBelow]
  generalize edit (budget + 1) v = edited at here ⊢
  obtain ⟨left, outcome⟩ := edited
  cases here
  rfl

/-- A removal that succeeds at a node and in the children that it leaves there. -/
theorem removeBelow_of_ok {n : Nat} (here : (edit (budget + 1) v).outcome = .ok n)
    (below : ∀ child ∈ (edit (budget + 1) v).value.children,
      (removeBelow limit edit budget child).outcome
        = .ok (removeBelow limit edit budget child).count) :
    removeBelow limit edit (budget + 1) v
      = ⟨(edit (budget + 1) v).value.withChildren ((edit (budget + 1) v).value.children.map
            fun child => (removeBelow limit edit budget child).value),
          .ok (n + ((edit (budget + 1) v).value.children.map
            fun child => (removeBelow limit edit budget child).count).sum)⟩ := by
  rw [removeBelow_succ here, editChildren_of_ok below]
  rfl

/-- A removal below a node that succeeds does so at the node and in the children left there. -/
theorem ok_of_removeBelow {n : Nat}
    (hok : (removeBelow limit edit (budget + 1) v).outcome = .ok n) :
    (edit (budget + 1) v).outcome = .ok (edit (budget + 1) v).count ∧
      ∀ child ∈ (edit (budget + 1) v).value.children,
        (removeBelow limit edit budget child).outcome
          = .ok (removeBelow limit edit budget child).count := by
  cases hhere : (edit (budget + 1) v).outcome with
  | error e =>
    rw [removeBelow] at hok
    generalize edit (budget + 1) v = edited at hhere hok
    obtain ⟨left, outcome⟩ := edited
    cases hhere
    cases hok
  | ok m =>
    rw [removeBelow_succ hhere] at hok
    dsimp only at hok
    refine ⟨by rw [Edited.count_of_ok hhere], ?_⟩
    cases hbelow : (editChildren (removeBelow limit edit budget)
        (edit (budget + 1) v).value).outcome with
    | ok m => exact ok_of_editChildren hbelow
    | error e =>
      rw [hbelow] at hok
      cases hok

end

/-- What a removal that succeeds has done. -/
theorem removal_of_ok {limit : Nat} {segments : List Segment} (below : LeadsBelow segments)
    {budget n : Nat} {v : Value} (hv : v.WellFormed)
    (hok : (remove limit segments budget v).outcome = .ok n) :
    Removal segments budget v (remove limit segments budget v).value n := by
  induction segments generalizing budget n v with
  | nil => exact absurd below id
  | cons segment rest ih =>
    cases rest with
    | nil =>
      have heq : remove limit [segment] budget v
          = ⟨(removeHere segment v).1, .ok (removeHere segment v).2⟩ := rfl
      rw [heq, removeHere_eq below hv.stepsDiffer] at hok ⊢
      cases hok
      exact .last below
    | cons next rest =>
      have hrest : LeadsBelow (next :: rest) := below
      by_cases hsegment : segment = .descent
      · subst hsegment
        rw [remove_cons hrest.ne_nil] at hok ⊢
        dsimp only at hok ⊢
        -- A descent comes to the children with one step less, which the segments alone do not show.
        induction budget generalizing n v with
        | zero => cases hok
        | succ budget ihbudget =>
          obtain ⟨hhere, hbelow⟩ := ok_of_removeBelow hok
          rw [removeBelow_of_ok hhere hbelow] at hok ⊢
          cases hok
          have hleft := ih hrest hv hhere
          exact .descend hrest hleft fun child mem =>
            ihbudget ((hleft.wellFormed hv).of_mem_children mem) (hbelow child mem)
      · have hchildren := ok_of_remove_cons hsegment hrest.ne_nil hok
        rw [remove_cons_of_ok hsegment hrest.ne_nil hv.stepsDiffer hchildren] at hok ⊢
        cases hok
        refine @Removal.pass segment (next :: rest) budget v
          (fun child => (remove limit (next :: rest) budget child).value)
          (fun child => (remove limit (next :: rest) budget child).count) hsegment hrest ?_
        intro node mem
        exact ih hrest (hv.of_mem_children (mem_children_of_mem_choose mem)) (hchildren node mem)

end JsonDoc
