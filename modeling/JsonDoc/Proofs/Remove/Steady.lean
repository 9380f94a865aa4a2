import JsonDoc.Proofs.Remove.Exact

/-!
# `JsonDoc.Proofs.Remove.Steady`: paths along which every removal is steady

Two things can change where the segments behind a descent lead while it removes: items move to
the front when others are taken out, so that an index leads to another item than before, and a
condition fails when a field that it tests is taken out of the candidate.

`alwaysSteady` reads off the segments that neither can happen. Conditions are safe where no
removal of the same descent has come to the inside of their candidates yet, which is so for the
last two segments if no other descent follows. Indices are safe where arrays lose all their items
or none, because the last segment is a member or all children, and in the last segment, if no
other descent follows.
-/

set_option autoImplicit false

namespace JsonDoc

/-! ### Paths -/

/-- What the segment leads to in an array is nothing or all items. -/
def Segment.allOrNone : Segment → Bool
  | property _ => true
  | wildcard => true
  | _ => false

/-- Whether the segment, with `rest` behind it and somewhere behind a descent, leads to the same
children whatever the descent has taken out before, if that is all items of an array or none
(`even`), or if no other descent follows (`flat`). -/
def Segment.steadyBefore (even flat : Bool) (rest : List Segment) : Segment → Bool
  | property _ => true
  | wildcard => true
  | index _ => even || flat && rest.isEmpty
  | filter _ => flat && decide (rest.length ≤ 1)
  | descent => !flat

/-- Whether the segments behind a descent all do so. -/
def steadyBehind (even flat : Bool) : List Segment → Bool
  | [] => true
  | segment :: rest => segment.steadyBefore even flat rest && steadyBehind even flat rest

/-- Whether every removal along the segments is steady, as far as the segments tell. -/
def alwaysSteady : List Segment → Bool
  | [] => true
  | .descent :: rest =>
    steadyBehind (rest.getLast?.any Segment.allOrNone) (rest.all fun segment => segment ≠ .descent)
      rest
  | _ :: rest => alwaysSteady rest

/-- A segment that is not a descent is passed over. -/
theorem alwaysSteady_cons {segment : Segment} (h : segment ≠ .descent) (rest : List Segment) :
    alwaysSteady (segment :: rest) = alwaysSteady rest := by
  cases segment with
  | descent => exact absurd rfl h
  | _ => rfl

/-! ### What is gone when a descent comes to a node -/

/-- All items of an array are gone, or none. -/
def EvenlyGone (gone : Location → Bool) (v : Value) : Prop :=
  ∀ location items, v.at? location = some (.array items) →
    ∀ i < items.length, ∀ j < items.length,
      gone (location ++ [.item i]) = gone (location ++ [.item j])

/-- What is evenly gone in a value is evenly gone in its children. -/
theorem EvenlyGone.below {gone : Location → Bool} {v : Value} (h : EvenlyGone gone v)
    (differ : v.StepsDiffer) {node : Step × Value} (mem : node ∈ v.childNodes) :
    EvenlyGone (Value.goneBelow gone node.1) node.2 := by
  intro location items hat i hi j hj
  refine h (node.1 :: location) items ?_ i hi j hj
  rwa [Value.at?_cons_of_child? (Value.child?_of_mem_childNodes differ mem)]

/-- A location below a value goes through one of its children. -/
theorem Value.exists_of_at?_cons {v w : Value} {step : Step} {location : Location}
    (h : v.at? (step :: location) = some w) :
    ∃ child, (step, child) ∈ v.childNodes ∧ child.at? location = some w := by
  rw [at?, Option.bind_eq_some_iff] at h
  obtain ⟨child, hchild, hat⟩ := h
  exact ⟨child, mem_childNodes_of_child? hchild, hat⟩

/-- A member, or all children, are no items of an array or all of them. -/
theorem evenlyGone_last {segment : Segment} (h : segment.allOrNone = true) {v : Value}
    (differ : v.StepsDiffer) : EvenlyGone (addressed [segment] v) v := by
  have hsegment : segment ≠ .descent := by
    rintro rfl
    cases h
  intro location items hat i hi j hj
  cases location with
  | nil =>
    cases hat
    -- A member takes no item, and a wildcard takes them all.
    have htakes (place : Nat) (lt : place < items.length) :
        addressed [segment] (.array items) [.item place] = segment.takes (.array items)
          (.item place, items[place]) := by
      rw [addressed_cons_childNode hsegment differ (Value.mem_childNodes_array lt)]
      exact Bool.and_true _
    rw [List.nil_append, List.nil_append, htakes i hi, htakes j hj]
    cases segment with
    | property name => rfl
    | wildcard => rfl
    | _ => cases h
  | cons step location =>
    obtain ⟨child, mem, -⟩ := Value.exists_of_at?_cons hat
    rw [List.cons_append, List.cons_append, addressed_cons_childNode hsegment differ mem,
      addressed_cons_childNode hsegment differ mem]
    cases location <;> rfl

/-- A segment in front of others leads to no item itself. -/
theorem evenlyGone_cons {segment : Segment} {rest : List Segment} (hsegment : segment ≠ .descent)
    (below : LeadsBelow rest) {v : Value} (differ : v.StepsDiffer)
    (h : ∀ node ∈ v.childNodes, EvenlyGone (addressed rest node.2) node.2) :
    EvenlyGone (addressed (segment :: rest) v) v := by
  intro location items hat i hi j hj
  cases location with
  | nil =>
    cases hat
    rw [List.nil_append, List.nil_append,
      addressed_cons_childNode hsegment differ (Value.mem_childNodes_array hi),
      addressed_cons_childNode hsegment differ (Value.mem_childNodes_array hj),
      below.addressed_nil, below.addressed_nil, Bool.and_false, Bool.and_false]
  | cons step location =>
    obtain ⟨child, mem, hchild⟩ := Value.exists_of_at?_cons hat
    rw [List.cons_append, List.cons_append, addressed_cons_childNode hsegment differ mem,
      addressed_cons_childNode hsegment differ mem, h _ mem location items hchild i hi j hj]

/-- What a descent leads to is evenly gone, if what the rest leads to is. -/
theorem evenlyGone_descent {rest : List Segment} (below : LeadsBelow rest)
    (h : ∀ {v : Value}, v.WellFormed → EvenlyGone (addressed rest v) v) {v : Value}
    (hv : v.WellFormed) : EvenlyGone (addressed (.descent :: rest) v) v := by
  intro location items hat i hi j hj
  induction location generalizing v with
  | nil =>
    cases hat
    -- An item goes when its array is asked, since nothing leads to the item itself from there.
    have hhere (place : Nat) (lt : place < items.length) :
        addressed (.descent :: rest) (.array items) [.item place]
          = addressed rest (.array items) [.item place] := by
      rw [addressed_descent_childNode hv.stepsDiffer (Value.mem_childNodes_array lt), addressed,
        addressedBelow, below.addressed_nil, Bool.or_false]
    rw [List.nil_append, List.nil_append, hhere i hi, hhere j hj]
    exact h hv [] items rfl i hi j hj
  | cons step location ih =>
    obtain ⟨child, mem, hchild⟩ := Value.exists_of_at?_cons hat
    have hnode := hv.of_mem_children (Value.mem_children_of_mem_childNodes mem)
    have hhere := h hv (step :: location) items hat i hi j hj
    rw [List.cons_append, List.cons_append] at hhere ⊢
    rw [addressed_descent_childNode hv.stepsDiffer mem,
      addressed_descent_childNode hv.stepsDiffer mem, hhere, ih hnode hchild]

/-- Where the last segment is a member or all children, arrays lose all their items or none.
Induction on the segments, with the last one told by `evenlyGone_last`. -/
theorem evenlyGone_addressed {segments : List Segment} (below : LeadsBelow segments)
    (hlast : segments.getLast?.any Segment.allOrNone = true) {v : Value} (hv : v.WellFormed) :
    EvenlyGone (addressed segments v) v := by
  induction segments generalizing v with
  | nil => exact absurd below id
  | cons segment rest ih =>
    cases rest with
    | nil => exact evenlyGone_last hlast hv.stepsDiffer
    | cons next rest =>
      have hrest : LeadsBelow (next :: rest) := below
      rw [List.getLast?_cons_cons] at hlast
      by_cases hsegment : segment = .descent
      · subst hsegment
        exact evenlyGone_descent hrest (ih hrest hlast) hv
      · refine evenlyGone_cons hsegment hrest hv.stepsDiffer fun node mem => ?_
        exact ih hrest hlast (hv.of_mem_children (Value.mem_children_of_mem_childNodes mem))

/-- Segments without descents lead down one step each. -/
theorem length_of_addressed {segments : List Segment} (flat : ∀ s ∈ segments, s ≠ .descent)
    {v : Value} {location : Location} (h : addressed segments v location = true) :
    location.length = segments.length := by
  induction segments generalizing v location with
  | nil =>
    rw [addressed, List.isEmpty_iff] at h
    rw [h]
    rfl
  | cons segment rest ih =>
    obtain ⟨hsegment, hrest⟩ := List.forall_mem_cons.1 flat
    cases location with
    | nil =>
      rw [addressed_cons_nil hsegment] at h
      cases h
    | cons step location =>
      rw [addressed_cons_cons hsegment, List.any_eq_true] at h
      obtain ⟨node, -, hnode⟩ := h
      rw [Bool.and_eq_true] at hnode
      rw [List.length_cons, List.length_cons, ih hrest hnode.2]

/-- What may be gone of a value when the segments are asked where they lead in it: all items of an
array or none, if `even`, and nothing as far below as the segments lead, if `flat`. -/
structure Harmless (even flat : Bool) (segments : List Segment) (gone : Location → Bool)
    (v : Value) : Prop where
  evenly : even = true → EvenlyGone gone v
  above : flat = true → ∀ location, gone location = true → location.length < segments.length

section
variable {even flat : Bool} {segment : Segment} {rest : List Segment} {gone : Location → Bool}
  {v : Value} {node : Step × Value}

/-- As long as nothing is gone no harm is done. -/
theorem harmless_none (segments : List Segment) :
    Harmless even flat segments (fun _ => false) v where
  evenly _ _ _ _ _ _ _ _ := rfl
  above _ _ hgone := Bool.noConfusion hgone

/-- What is harmless for a segment in a value is harmless for the rest in its children. -/
theorem Harmless.below (h : Harmless even flat (segment :: rest) gone v) (differ : v.StepsDiffer)
    (mem : node ∈ v.childNodes) :
    Harmless even flat rest (Value.goneBelow gone node.1) node.2 where
  evenly heven := (h.evenly heven).below differ mem
  above hflat location hgone :=
    Nat.lt_of_succ_lt_succ (h.above hflat (node.1 :: location) hgone)

/-- With other descents to follow, it does not matter how many segments do. -/
theorem Harmless.of_not_flat {segments : List Segment} (h : Harmless even false segments gone v) :
    Harmless even false rest gone v where
  evenly := h.evenly
  above := nofun

/-- Of an array that an index picks from, no item is gone. -/
theorem Harmless.items_stay {i : Int} {items : List Value}
    (h : Harmless even flat (.index i :: rest) gone (.array items))
    (steady : (Segment.index i).steadyBefore even flat rest = true)
    (mem : node ∈ (Value.array items).childNodes) (stays : gone [node.1] = false) :
    ∀ other ∈ (Value.array items).childNodes, gone [other.1] = false := by
  rw [Segment.steadyBefore, Bool.or_eq_true, Bool.and_eq_true, List.isEmpty_iff] at steady
  intro other hother
  -- One item stays and the others with it, or what is gone lies above the items.
  obtain heven | ⟨hflat, rfl⟩ := steady
  · obtain ⟨i, hi⟩ := List.mem_iff_getElem?.1 mem
    obtain ⟨j, hj⟩ := List.mem_iff_getElem?.1 hother
    obtain ⟨hstep, hitem⟩ := Value.getElem?_childNodes_array.1 hi
    obtain ⟨hstep', hitem'⟩ := Value.getElem?_childNodes_array.1 hj
    obtain ⟨lt, -⟩ := List.getElem?_eq_some_iff.1 hitem
    obtain ⟨lt', -⟩ := List.getElem?_eq_some_iff.1 hitem'
    rw [hstep] at stays
    rw [hstep']
    exact (h.evenly heven [] items rfl j lt' i lt).trans stays
  · rw [← Bool.not_eq_true]
    intro hgone
    exact absurd (h.above hflat _ hgone) (Nat.lt_irrefl 1)

/-- The segment leads to the same children when some are gone. -/
theorem takes_without (h : Harmless even flat (segment :: rest) gone v)
    (steady : segment.steadyBefore even flat rest = true)
    (mem : node ∈ v.childNodes) (stays : gone [node.1] = false) :
    segment.takes (v.without gone)
        (Value.stepAfter gone node.1, node.2.without (Value.goneBelow gone node.1))
      = segment.takes v node := by
  cases segment with
  | property name =>
    obtain ⟨step, child⟩ := node
    cases step <;> rfl
  | index i =>
    cases v with
    | array items =>
      have stay := h.items_stay steady mem stays
      rw [Segment.takes, Segment.takes, Value.length_children_without stay,
        Value.stepAfter_eq_self stay mem]
    | object members =>
      obtain ⟨m, -, rfl⟩ := List.mem_map.1 mem
      simp [Segment.takes, Value.stepAfter]
    | _ => cases mem
  | filter condition =>
    rw [Segment.steadyBefore, Bool.and_eq_true, decide_eq_true_eq] at steady
    obtain ⟨hflat, hlength⟩ := steady
    -- What is gone is not that far below.
    have hself : node.2.without (Value.goneBelow gone node.1) = node.2 := by
      refine Value.without_eq_self fun step location => ?_
      rw [← Bool.not_eq_true, Value.goneBelow]
      intro hgone
      have hlt := h.above hflat _ hgone
      simp only [List.length_cons] at hlt
      omega
    rw [Segment.takes, Segment.takes, hself]
  | _ => rfl

end

/-! ### Steady removals -/

/-- The locations up to which nothing is gone. -/
def Spared (gone : Location → Bool) : Location → Prop
  | [] => True
  | step :: rest => gone [step] = false ∧ Spared (Value.goneBelow gone step) rest

/-- The segments lead to the same parts when others are gone. -/
theorem addressed_without {even flat : Bool} {segments : List Segment} {gone : Location → Bool}
    {v w : Value} (steady : steadyBehind even flat segments = true)
    (h : Harmless even flat segments gone v) (hv : v.WellFormed) {location : Location}
    (hat : v.at? location = some w) (spared : Spared gone location) :
    addressed segments (v.without gone) (Value.locationAfter gone location)
      = addressed segments v location := by
  induction segments generalizing gone v location with
  | nil =>
    cases location <;> rfl
  | cons segment rest ih =>
    obtain ⟨hsteady, hrest⟩ := Bool.and_eq_true_iff.1 steady
    by_cases hsegment : segment = .descent
    · subst hsegment
      -- Before another descent it only matters that arrays lose all items or none.
      obtain rfl : flat = false := by simpa [Segment.steadyBefore] using hsteady
      induction location generalizing gone v with
      | nil => exact ih hrest h.of_not_flat hv hat spared
      | cons step location ihlocation =>
        have hhere := ih hrest h.of_not_flat hv hat spared
        obtain ⟨child, mem, hchild⟩ := Value.exists_of_at?_cons hat
        obtain ⟨stays, hspared⟩ := spared
        have hnode := hv.of_mem_children (Value.mem_children_of_mem_childNodes mem)
        have hbelow := ihlocation hnode hchild hspared (h.below hv.stepsDiffer mem).of_not_flat
        rw [Value.locationAfter] at hhere ⊢
        rw [addressed_descent_childNode hv.stepsDiffer mem,
          addressed_descent_childNode (hv.without gone).stepsDiffer
            (Value.mem_childNodes_without mem stays), hhere, hbelow]
    · cases location with
      | nil => rw [Value.locationAfter, addressed_cons_nil hsegment, addressed_cons_nil hsegment]
      | cons step location =>
        obtain ⟨child, mem, hchild⟩ := Value.exists_of_at?_cons hat
        obtain ⟨stays, hbelow⟩ := spared
        have hnode := hv.of_mem_children (Value.mem_children_of_mem_childNodes mem)
        rw [Value.locationAfter, addressed_cons_childNode hsegment hv.stepsDiffer mem,
          addressed_cons_childNode hsegment (hv.without gone).stepsDiffer
            (Value.mem_childNodes_without mem stays),
          takes_without h hsteady mem stays,
          ih hrest (h.below hv.stepsDiffer mem) hnode hchild hbelow]

/-- Taking out in two steps, when the second takes out what it would have taken out at first. -/
theorem without_goneTwice {gone next all : Location → Bool} {v : Value} (hv : v.WellFormed)
    (h : ∀ location w, v.at? location = some w → Spared gone location →
      next (Value.locationAfter gone location) = all location) :
    (v.without gone).without next = v.without fun location => gone location || all location := by
  rw [Value.without_without]
  induction v using Value.induction_on_children generalizing gone next all with
  | step v ih =>
    refine Value.without_congr_children fun node mem => ?_
    have hat (location : Location) : v.at? (node.1 :: location) = node.2.at? location :=
      Value.at?_cons_of_child? (Value.child?_of_mem_childNodes hv.stepsDiffer mem) location
    cases stays : gone [node.1] with
    | true => simp [Value.goneTwice, stays]
    | false =>
      -- The child stays, so that the second round finds it where it has moved to.
      have hhere : next [Value.stepAfter gone node.1] = all [node.1] :=
        h [node.1] node.2 (hat []) ⟨stays, trivial⟩
      refine ⟨by rw [Value.goneTwice, stays]; exact hhere, fun _ => ?_⟩
      rw [Value.goneBelow_goneTwice]
      refine ih node mem (hv.of_mem_children (Value.mem_children_of_mem_childNodes mem)) ?_
      intro location w hw hspared
      exact h (node.1 :: location) w ((hat location).trans hw) ⟨stays, hspared⟩

section
variable {even flat : Bool} {segments rest : List Segment} {v : Value}

/-- Behind a descent there is a segment. -/
theorem LeadsBelow.of_descent (h : LeadsBelow (.descent :: rest)) : LeadsBelow rest := by
  cases rest with
  | nil => exact absurd rfl h
  | cons => exact h

/-- A descent is steady whatever may be gone when it comes to a node. -/
theorem steadyBelow_of_harmless (below : LeadsBelow rest)
    (hsteady : steadyBehind even flat rest = true)
    (heven : even = true → rest.getLast?.any Segment.allOrNone = true)
    (hflat : flat = true → ∀ s ∈ rest, s ≠ .descent)
    (inner : ∀ {v : Value}, v.WellFormed → Steady rest v) (hv : v.WellFormed)
    {gone : Location → Bool} (h : Harmless even flat rest gone v) :
    SteadyBelow rest (Steady rest) gone v := by
  induction v using Value.induction_on_children generalizing gone with
  | step v ih =>
    -- What the rest takes out here does no harm below either.
    have hafter {node : Step × Value} (mem : node ∈ v.childNodes) : Harmless even flat rest
        (Value.goneBelow (goneAfter rest gone v) node.1) node.2 := by
      refine ⟨fun h' => ?_, fun h' location hgone => ?_⟩
      · refine EvenlyGone.below (fun location items hat i hi j hj => ?_) hv.stepsDiffer mem
        rw [goneAfter, goneAfter, h.evenly h' location items hat i hi j hj,
          evenlyGone_addressed below (heven h') hv location items hat i hi j hj]
      · obtain hgone | hgone := Bool.or_eq_true_iff.1 hgone
        · exact Nat.lt_of_succ_lt (h.above h' _ hgone)
        · exact Nat.lt_of_succ_le (Nat.le_of_eq (length_of_addressed (hflat h') hgone))
    refine ⟨inner (hv.without gone), ?_, fun node mem _ => ?_⟩
    · exact without_goneTwice hv fun location w hat spared =>
        addressed_without hsteady h hv hat spared
    · exact ih node mem (hv.of_mem_children (Value.mem_children_of_mem_childNodes mem))
        (hafter mem)

/-- Segments that lead to the same parts whatever a descent has taken out are steady. Both flags may
only be used where they hold: of the last segment, and of the absence of further descents. -/
theorem steady_of_steadyBehind (below : LeadsBelow segments)
    (hsteady : steadyBehind even flat segments = true)
    (heven : even = true → segments.getLast?.any Segment.allOrNone = true)
    (hflat : flat = true → ∀ s ∈ segments, s ≠ .descent) (hv : v.WellFormed) :
    Steady segments v := by
  induction segments generalizing v with
  | nil => exact absurd below id
  | cons segment rest ih =>
    obtain ⟨hsegment, hrest⟩ := Bool.and_eq_true_iff.1 hsteady
    cases rest with
    | nil =>
      rw [steady_cons below]
      exact fun _ _ => trivial
    | cons next rest =>
      have hbelow : LeadsBelow (next :: rest) := below
      rw [List.getLast?_cons_cons] at heven
      replace hflat (h : flat = true) := (List.forall_mem_cons.1 (hflat h)).2
      have hinner {w : Value} (hw : w.WellFormed) := ih hbelow hrest heven hflat hw
      by_cases hdescent : segment = .descent
      · subst hdescent
        exact steadyBelow_of_harmless hbelow hrest heven hflat hinner hv (harmless_none _)
      · rw [steady_cons hdescent]
        intro node mem
        exact hinner (hv.of_mem_children (mem_children_of_mem_choose mem))

/-- Along such segments every removal is steady. -/
theorem steady_of_alwaysSteady (below : LeadsBelow segments)
    (h : alwaysSteady segments = true) (hv : v.WellFormed) : Steady segments v := by
  induction segments generalizing v with
  | nil => exact absurd below id
  | cons segment rest ih =>
    by_cases hdescent : segment = .descent
    · subst hdescent
      -- The flags are those of the segments behind this descent.
      have hflat : (rest.all fun segment => segment ≠ .descent) = true →
          ∀ s ∈ rest, s ≠ .descent := by
        intro hall s mem
        simpa using List.all_eq_true.1 hall s mem
      have hinner {w : Value} (hw : w.WellFormed) :=
        steady_of_steadyBehind below.of_descent h id hflat hw
      exact steadyBelow_of_harmless below.of_descent h id hflat hinner hv (harmless_none _)
    · rw [steady_cons hdescent]
      intro node mem
      have hnode := hv.of_mem_children (mem_children_of_mem_choose mem)
      rw [alwaysSteady_cons hdescent] at h
      cases rest with
      | nil => trivial
      | cons next rest => exact ih below h hnode

end

end JsonDoc
