import JsonDoc.Proofs.Edit.Child

/-!
# `JsonDoc.Proofs.Remove.Without`: documents without some of their parts

`Value.without` takes the parts at some locations out of a document, all at once: the items of an
array that stay move to the front, and what stays keeps its order.

A removal changes one container at a time, and `Value.revise` is what it can make of one: each
child is replaced or dropped. `Value.without` is such a change at every level (`without_eq`), so
that the two are compared child by child.
-/

set_option autoImplicit false

namespace JsonDoc.Value

/-! ### One container -/

/-- The container with each child replaced by what `f` makes of it, or dropped where that is
nothing; the items of an array are counted anew. -/
def revise (f : Step × Value → Option Value) : Value → Value
  | array items => array ((array items).childNodes.filterMap f)
  | object members => object (members.filterMap fun m => (f (.key m.1, m.2)).map (m.1, ·))
  | v => v

section
variable {f g : Step × Value → Option Value} {v : Value}

/-- The children of a revised value are what the revision makes of the old ones. -/
theorem children_revise (f : Step × Value → Option Value) (v : Value) :
    (v.revise f).children = v.childNodes.filterMap f := by
  cases v with
  | object members =>
    rw [revise, children, Members.values, childNodes, List.map_filterMap, List.filterMap_map]
    refine List.filterMap_congr fun m _ => ?_
    simp [Function.comp_def]
  | _ => rfl

/-- Revisions that agree on the children agree. -/
theorem revise_congr (h : ∀ node ∈ v.childNodes, f node = g node) : v.revise f = v.revise g := by
  cases v with
  | array items => rw [revise, revise, List.filterMap_congr h]
  | object members =>
    rw [revise, revise]
    congr 1
    exact List.filterMap_congr fun m mem => by rw [h _ (List.mem_map_of_mem mem)]
  | _ => rfl

/-- A revision that keeps every child as it is changes nothing. -/
theorem revise_self (v : Value) : v.revise (fun node => some node.2) = v := by
  cases v with
  | array items =>
    rw [revise, List.filterMap_eq_map', childNodes_map_snd]
    rfl
  | object members => simp [revise]
  | _ => rfl

/-- The children that are left can be revised again. -/
theorem withChildren_revise (f : Step × Value → Option Value) (h : Value → Value) (v : Value) :
    (v.revise f).withChildren ((v.revise f).children.map h)
      = v.revise fun node => (f node).map h := by
  rw [children_revise]
  cases v with
  | array items => rw [revise, revise, withChildren, List.map_filterMap]
  | object members =>
    rw [revise, revise, withChildren, childNodes, List.filterMap_map]
    congr 1
    induction members with
    | nil => rfl
    | cons m rest ih =>
      simp only [List.filterMap_cons, Function.comp_apply]
      cases f (.key m.1, m.2) with
      | none => exact ih
      | some w => exact congrArg ((m.1, h w) :: ·) ih
  | _ => rfl

/-- Replacing every child is a revision that drops none. -/
theorem withChildren_map (h : Value → Value) (v : Value) :
    v.withChildren (v.children.map h) = v.revise fun node => some (h node.2) := by
  have hrevise := withChildren_revise (fun node => some node.2) h v
  rwa [revise_self] at hrevise

end

/-! ### Whole documents -/

mutual

/-- The value without the parts at the locations that are `gone`. -/
def without (gone : Location → Bool) : Value → Value
  | array items => array (withoutItems gone 0 items)
  | object members => object (withoutMembers gone members)
  | v => v

/-- The items that stay, where the first has this place. -/
def withoutItems (gone : Location → Bool) (place : Nat) : List Value → List Value
  | [] => []
  | item :: rest =>
    if gone [.item place] then withoutItems gone (place + 1) rest
    else item.without (fun location => gone (.item place :: location)) ::
      withoutItems gone (place + 1) rest

/-- The members that stay. -/
def withoutMembers (gone : Location → Bool) : List (String × Value) → List (String × Value)
  | [] => []
  | (key, item) :: rest =>
    if gone [.key key] then withoutMembers gone rest
    else (key, item.without fun location => gone (.key key :: location)) ::
      withoutMembers gone rest

end

/-- What is gone below a child. -/
def goneBelow (gone : Location → Bool) (step : Step) (location : Location) : Bool :=
  gone (step :: location)

/-- The recursion over the items, as one filter; the place of the first item is arbitrary, for the
induction. -/
theorem withoutItems_eq (gone : Location → Bool) (items : List Value) (place : Nat) :
    withoutItems gone place items
      = ((items.zipIdx place).map fun item => (Step.item item.2, item.1)).filterMap fun node =>
          if gone [node.1] then none else some (node.2.without (goneBelow gone node.1)) := by
  induction items generalizing place with
  | nil => rfl
  | cons item rest ih =>
    rw [withoutItems, List.zipIdx_cons, List.map_cons, List.filterMap_cons, ih]
    cases gone [.item place] <;> rfl

/-- The recursion over the members, as one filter. -/
theorem withoutMembers_eq (gone : Location → Bool) (members : List (String × Value)) :
    withoutMembers gone members = members.filterMap fun m =>
      if gone [.key m.1] then none
      else some (m.1, m.2.without (goneBelow gone (.key m.1))) := by
  induction members with
  | nil => rfl
  | cons m rest ih =>
    obtain ⟨key, item⟩ := m
    rw [withoutMembers, List.filterMap_cons, ih]
    cases gone [.key key] <;> rfl

/-- One level of `without`. -/
theorem without_eq (gone : Location → Bool) (v : Value) :
    v.without gone = v.revise fun node =>
      if gone [node.1] then none else some (node.2.without (goneBelow gone node.1)) := by
  cases v with
  | array items => rw [without, withoutItems_eq, revise, childNodes]
  | object members =>
    rw [without, withoutMembers_eq, revise]
    congr 1
    refine List.filterMap_congr fun m _ => ?_
    cases gone [.key m.1] <;> rfl
  | _ => rfl

section
variable {gone gone' : Location → Bool} {v : Value}

/-- What is gone is compared child by child. -/
theorem without_congr_children (h : ∀ node ∈ v.childNodes, gone [node.1] = gone' [node.1] ∧
      (gone [node.1] = false →
        node.2.without (goneBelow gone node.1) = node.2.without (goneBelow gone' node.1))) :
    v.without gone = v.without gone' := by
  rw [without_eq, without_eq]
  refine revise_congr fun node mem => ?_
  obtain ⟨here, below⟩ := h node mem
  rw [← here]
  cases hgone : gone [node.1] with
  | true => rfl
  | false => simp [below hgone]

/-- A value cannot be taken out of itself. -/
theorem without_congr (h : ∀ step rest, gone (step :: rest) = gone' (step :: rest)) :
    v.without gone = v.without gone' := by
  refine without_congr_children fun node _ => ⟨h node.1 [], fun _ => ?_⟩
  congr 1
  exact funext fun location => h node.1 location

end

/-! ### Induction on the children -/

/-- Children are smaller, for inductions on the size. -/
theorem sizeOf_lt_of_mem_childNodes {v : Value} {node : Step × Value} (h : node ∈ v.childNodes) :
    sizeOf node.2 < sizeOf v := by
  cases v with
  | array items =>
    obtain ⟨item, mem, rfl⟩ := List.mem_map.1 h
    have hlt := List.sizeOf_lt_of_mem (List.fst_mem_of_mem_zipIdx mem)
    simp only [array.sizeOf_spec]
    omega
  | object members =>
    obtain ⟨⟨key, item⟩, mem, rfl⟩ := List.mem_map.1 h
    have hlt := List.sizeOf_lt_of_mem mem
    simp only [Prod.mk.sizeOf_spec] at hlt
    simp only [object.sizeOf_spec]
    omega
  | _ => cases h

/-- What holds of a value if it holds of its children holds of every value. -/
theorem induction_on_children {motive : Value → Prop} (v : Value)
    (step : ∀ v : Value, (∀ node ∈ v.childNodes, motive node.2) → motive v) : motive v := by
  induction hsize : sizeOf v using Nat.strongRecOn generalizing v with
  | ind size ih =>
    subst hsize
    exact step v fun node mem => ih _ (sizeOf_lt_of_mem_childNodes mem) node.2 rfl

/-- Where nothing is gone nothing changes. -/
theorem without_eq_self {gone : Location → Bool} {v : Value}
    (h : ∀ step rest, gone (step :: rest) = false) : v.without gone = v := by
  induction v using induction_on_children generalizing gone with
  | step v ih =>
    refine ((without_eq gone v).trans (revise_congr fun node mem => ?_)).trans (revise_self v)
    rw [h node.1 [], ih node mem fun step rest => h node.1 (step :: rest)]
    simp

/-! ### Taking out parts twice -/

/-- The place that an item has when the items that are gone before it are left out. -/
def placeAfter (gone : Location → Bool) (place : Nat) : Nat :=
  (List.range place).countP fun earlier => !gone [.item earlier]

/-- The step to a child that stays, once others are gone. -/
def stepAfter (gone : Location → Bool) : Step → Step
  | .key name => .key name
  | .item place => .item (placeAfter gone place)

/-- Where a part that stays is found, once others are gone. -/
def locationAfter (gone : Location → Bool) : Location → Location
  | [] => []
  | step :: rest => stepAfter gone step :: locationAfter (goneBelow gone step) rest

/-- What is gone after `next` is taken out of what `gone` has left, as seen at first. -/
def goneTwice (gone next : Location → Bool) (location : Location) : Bool :=
  gone location || next (locationAfter gone location)

/-- The item before a place counts if it stays. -/
theorem placeAfter_succ (gone : Location → Bool) (place : Nat) :
    placeAfter gone (place + 1)
      = if gone [.item place] then placeAfter gone place else placeAfter gone place + 1 := by
  rw [placeAfter, List.range_succ, List.countP_append, ← placeAfter, List.countP_singleton]
  cases gone [.item place] <;> rfl

/-- What is gone below a child after both rounds. The second round finds the child where it has
moved to. -/
theorem goneBelow_goneTwice (gone next : Location → Bool) (step : Step) :
    goneBelow (goneTwice gone next) step
      = goneTwice (goneBelow gone step) (goneBelow next (stepAfter gone step)) := rfl

/-- Two rounds over the items. The places of the second round are counted among the items that the
first one has left. -/
theorem withoutItems_withoutItems {items : List Value}
    (ih : ∀ item ∈ items, ∀ gone next : Location → Bool,
      (item.without gone).without next = item.without (goneTwice gone next))
    (gone next : Location → Bool) (place : Nat) :
    withoutItems next (placeAfter gone place) (withoutItems gone place items)
      = withoutItems (goneTwice gone next) place items := by
  induction items generalizing place with
  | nil => rfl
  | cons item rest ihrest =>
    obtain ⟨hitem, hrest⟩ := List.forall_mem_cons.1 ih
    have hnext := ihrest hrest (place + 1)
    rw [placeAfter_succ] at hnext
    rw [withoutItems, withoutItems]
    cases hgone : gone [.item place] with
    | true =>
      -- The second round does not see the item, and counts on from the same place.
      rw [hgone, if_pos rfl] at hnext
      rw [if_pos rfl, if_pos (by rw [goneTwice, hgone]; rfl), hnext]
    | false =>
      rw [hgone, if_neg Bool.false_ne_true] at hnext
      have htwice : goneTwice gone next [.item place] = next [.item (placeAfter gone place)] := by
        rw [goneTwice, hgone]
        rfl
      rw [if_neg Bool.false_ne_true, withoutItems, htwice, hnext]
      exact congrArg (fun left => if next _ then _ else left :: _) (hitem _ _)

/-- Two rounds over the members, which stay under their keys. -/
theorem withoutMembers_withoutMembers {members : List (String × Value)}
    (ih : ∀ m ∈ members, ∀ gone next : Location → Bool,
      (m.2.without gone).without next = m.2.without (goneTwice gone next))
    (gone next : Location → Bool) :
    withoutMembers next (withoutMembers gone members)
      = withoutMembers (goneTwice gone next) members := by
  induction members with
  | nil => rfl
  | cons m rest ihrest =>
    obtain ⟨key, item⟩ := m
    obtain ⟨hitem, hrest⟩ := List.forall_mem_cons.1 ih
    rw [withoutMembers, withoutMembers]
    cases hgone : gone [.key key] with
    | true => rw [if_pos rfl, if_pos (by rw [goneTwice, hgone]; rfl), ihrest hrest]
    | false =>
      have htwice : goneTwice gone next [.key key] = next [.key key] := by
        rw [goneTwice, hgone]
        rfl
      rw [if_neg Bool.false_ne_true, withoutMembers, htwice, ihrest hrest]
      exact congrArg (fun left => if next _ then _ else (key, left) :: _) (hitem _ _)

/-- Parts that are taken out one after the other are taken out at once. -/
theorem without_without (gone next : Location → Bool) (v : Value) :
    (v.without gone).without next = v.without (goneTwice gone next) := by
  induction v using induction_on_children generalizing gone next with
  | step v ih =>
    cases v with
    | array items =>
      have hitems : ∀ item ∈ items, ∀ gone next : Location → Bool,
          (item.without gone).without next = item.without (goneTwice gone next) := by
        intro item mem
        obtain ⟨place, hplace⟩ := List.mem_iff_getElem?.1 mem
        exact ih _ (List.mem_of_getElem? (getElem?_childNodes_array.2 ⟨rfl, hplace⟩))
      rw [without, without, without]
      exact congrArg array (withoutItems_withoutItems hitems gone next 0)
    | object members =>
      have hmembers (m : String × Value) (mem : m ∈ members) := ih _ (List.mem_map_of_mem mem)
      rw [without, without, without, withoutMembers_withoutMembers hmembers]
    | _ => rfl

/-! ### What is left -/

/-- What is listed with a step is a child. -/
theorem mem_children_of_mem_childNodes {v : Value} {node : Step × Value}
    (h : node ∈ v.childNodes) : node.2 ∈ v.children := by
  rw [← childNodes_map_snd]
  exact List.mem_map_of_mem h

/-- An item that stays is found where it has moved to, without what is gone below it. -/
theorem exists_getElem?_withoutItems {gone : Location → Bool} {items : List Value} {item : Value}
    {first place : Nat} (h : items[place]? = some item)
    (stays : gone [.item (first + place)] = false) :
    ∃ k, placeAfter gone (first + place) = placeAfter gone first + k ∧
      (withoutItems gone first items)[k]?
        = some (item.without (goneBelow gone (.item (first + place)))) := by
  induction items generalizing first place with
  | nil => cases h
  | cons head rest ih =>
    rw [withoutItems]
    cases place with
    | zero =>
      cases h
      rw [Nat.add_zero] at stays
      rw [stays]
      exact ⟨0, rfl, rfl⟩
    | succ place =>
      rw [show first + (place + 1) = first + 1 + place by omega] at stays ⊢
      -- The item in front counts for the place if it stays.
      obtain ⟨k, hplace, hk⟩ := ih h stays
      rw [placeAfter_succ] at hplace
      cases hgone : gone [.item first] with
      | true =>
        rw [hgone, if_pos rfl] at hplace
        exact ⟨k, hplace, hk⟩
      | false =>
        rw [hgone, if_neg Bool.false_ne_true] at hplace
        exact ⟨k + 1, by omega, hk⟩

/-- A child that is not gone, where it stands then. -/
theorem mem_childNodes_without {gone : Location → Bool} {v : Value} {node : Step × Value}
    (mem : node ∈ v.childNodes) (stays : gone [node.1] = false) :
    (stepAfter gone node.1, node.2.without (goneBelow gone node.1))
      ∈ (v.without gone).childNodes := by
  cases v with
  | array items =>
    obtain ⟨place, hplace⟩ := List.mem_iff_getElem?.1 mem
    obtain ⟨step, item⟩ := node
    obtain ⟨rfl, hitem⟩ := getElem?_childNodes_array.1 hplace
    rw [← Nat.zero_add place] at stays
    obtain ⟨k, hk, hleft⟩ := exists_getElem?_withoutItems hitem stays
    rw [Nat.zero_add, show placeAfter gone 0 = 0 from rfl, Nat.zero_add] at hk
    rw [Nat.zero_add] at hleft
    rw [without, stepAfter, hk]
    exact List.mem_of_getElem? (getElem?_childNodes_array.2 ⟨rfl, hleft⟩)
  | object members =>
    obtain ⟨m, hmem, rfl⟩ := List.mem_map.1 mem
    have hleft : (m.1, m.2.without (goneBelow gone (.key m.1))) ∈ withoutMembers gone members := by
      rw [withoutMembers_eq]
      exact List.mem_filterMap.2 ⟨m, hmem, by rw [stays]; rfl⟩
    exact List.mem_map_of_mem hleft
  | _ => cases mem

/-- A child that is left is one that was there, without some of its parts. -/
theorem exists_of_mem_children_without {gone : Location → Bool} {v child : Value}
    (h : child ∈ (v.without gone).children) :
    ∃ node ∈ v.childNodes, child = node.2.without (goneBelow gone node.1) := by
  rw [without_eq, children_revise, List.mem_filterMap] at h
  obtain ⟨node, mem, hnode⟩ := h
  split at hnode
  · cases hnode
  · exact ⟨node, mem, (Option.some.inj hnode).symm⟩

/-- Items before which none is gone keep their places. -/
theorem placeAfter_eq_self {gone : Location → Bool} {place : Nat}
    (h : ∀ earlier < place, gone [.item earlier] = false) : placeAfter gone place = place := by
  rw [placeAfter, List.countP_eq_length.2, List.length_range]
  intro earlier mem
  rw [h earlier (List.mem_range.1 mem)]
  rfl

/-- Each item is listed under its place. -/
theorem mem_childNodes_array {items : List Value} {i : Nat} (lt : i < items.length) :
    (Step.item i, items[i]) ∈ (array items).childNodes :=
  List.mem_of_getElem? (getElem?_childNodes_array.2 ⟨rfl, List.getElem?_eq_getElem lt⟩)

/-- Where none of the children is gone, they all stand where they stood. -/
theorem stepAfter_eq_self {gone : Location → Bool} {v : Value}
    (stay : ∀ node ∈ v.childNodes, gone [node.1] = false) {node : Step × Value}
    (mem : node ∈ v.childNodes) : stepAfter gone node.1 = node.1 := by
  cases v with
  | array items =>
    obtain ⟨place, hplace⟩ := List.mem_iff_getElem?.1 mem
    obtain ⟨step, item⟩ := node
    obtain ⟨rfl, hitem⟩ := getElem?_childNodes_array.1 hplace
    obtain ⟨hlt, -⟩ := List.getElem?_eq_some_iff.1 hitem
    have hplaces : ∀ earlier < place, gone [.item earlier] = false := fun earlier lt =>
      stay (.item earlier, _) (mem_childNodes_array (Nat.lt_trans lt hlt))
    rw [stepAfter, placeAfter_eq_self hplaces]
  | object members =>
    obtain ⟨m, -, rfl⟩ := List.mem_map.1 mem
    rfl
  | _ => cases mem

/-- An array of which nothing is gone keeps its length. -/
theorem length_children_without {gone : Location → Bool} {v : Value}
    (stay : ∀ node ∈ v.childNodes, gone [node.1] = false) :
    (v.without gone).children.length = v.children.length := by
  have hsome : ∀ node ∈ v.childNodes,
      (if gone [node.1] then none else some (node.2.without (goneBelow gone node.1)))
        = some (node.2.without (goneBelow gone node.1)) := by
    intro node mem
    rw [stay node mem]
    rfl
  rw [without_eq, children_revise, List.filterMap_congr hsome, List.filterMap_eq_map',
    List.length_map, length_childNodes]

/-- A child that is left stands where it stood, or further to the front. -/
theorem exists_of_mem_childNodes_revise {f : Step × Value → Option Value} {v : Value}
    {left : Step × Value} (h : left ∈ (v.revise f).childNodes) :
    ∃ node ∈ v.childNodes, f node = some left.2 ∧
      ((∃ name, left.1 = .key name) ∨ (∀ other ∈ v.childNodes, f other ≠ none) →
        node.1 = left.1) := by
  cases v with
  | array items =>
    obtain ⟨place, hplace⟩ := List.mem_iff_getElem?.1 h
    obtain ⟨step, child⟩ := left
    obtain ⟨rfl, hchild⟩ := getElem?_childNodes_array.1 hplace
    -- If no item is dropped each stays at its place; otherwise nothing is said of places.
    by_cases hall : ∀ other ∈ (array items).childNodes, f other ≠ none
    · have hmap : (array items).childNodes.filterMap f
          = (array items).childNodes.map fun node => (f node).getD .null := by
        refine List.filterMap_eq_map_iff_forall_eq_some.2 fun node mem => ?_
        obtain ⟨w, hw⟩ := Option.ne_none_iff_exists'.1 (hall node mem)
        rw [hw, Option.getD_some]
      rw [hmap, List.getElem?_map, Option.map_eq_some_iff] at hchild
      obtain ⟨⟨step, item⟩, hnode, rfl⟩ := hchild
      have mem := List.mem_of_getElem? hnode
      obtain ⟨w, hw⟩ := Option.ne_none_iff_exists'.1 (hall _ mem)
      exact ⟨_, mem, by rw [hw, Option.getD_some], fun _ => (getElem?_childNodes_array.1 hnode).1⟩
    · obtain ⟨node, mem, hnode⟩ := List.mem_filterMap.1 (List.mem_of_getElem? hchild)
      refine ⟨node, mem, hnode, ?_⟩
      rintro (⟨name, hname⟩ | h)
      · cases hname
      · exact absurd h hall
  | object members =>
    obtain ⟨m, mem, rfl⟩ := List.mem_map.1 h
    obtain ⟨old, hold, hm⟩ := List.mem_filterMap.1 mem
    obtain ⟨w, hw, rfl⟩ := Option.map_eq_some_iff.1 hm
    exact ⟨(.key old.1, old.2), List.mem_map_of_mem hold, hw, fun _ => rfl⟩
  | _ => cases h

/-- A member of what is left is what is left of the member. -/
theorem exists_child?_of_without {gone : Location → Bool} {v w : Value} (hv : v.WellFormed)
    {name : String} (h : (v.without gone).child? (.key name) = some w) :
    ∃ child, v.child? (.key name) = some child ∧
      w = child.without (goneBelow gone (.key name)) := by
  have mem := mem_childNodes_of_child? h
  rw [without_eq] at mem
  obtain ⟨⟨step, child⟩, hmem, hchild, hstep⟩ := exists_of_mem_childNodes_revise mem
  obtain rfl : step = .key name := hstep (.inl ⟨name, rfl⟩)
  refine ⟨child, child?_of_mem_childNodes hv.stepsDiffer hmem, ?_⟩
  split at hchild
  · cases hchild
  · exact (Option.some.inj hchild).symm

/-- The keys that stay are some of those that were there, in their order. -/
theorem keys_revise_sublist (f : String × Value → Option Value) (members : List (String × Value)) :
    (Members.keys (members.filterMap fun m => (f m).map (m.1, ·))).Sublist
      (Members.keys members) := by
  induction members with
  | nil => exact .slnil
  | cons m rest ih =>
    rw [List.filterMap_cons]
    cases f m with
    | none => exact ih.cons _
    | some w => exact ih.cons_cons _

/-- A revision keeps keys different, since it only drops members, if it keeps each child well
formed. -/
theorem WellFormed.revise {f : Step × Value → Option Value} {v : Value} (hv : v.WellFormed)
    (h : ∀ node ∈ v.childNodes, ∀ w, f node = some w → w.WellFormed) : (v.revise f).WellFormed := by
  have hchildren : ∀ child ∈ (v.revise f).children, child.WellFormed := by
    intro child mem
    rw [children_revise, List.mem_filterMap] at mem
    obtain ⟨node, mem, hnode⟩ := mem
    exact h node mem child hnode
  cases v with
  | array items => exact wellFormedItems_iff.2 hchildren
  | object members =>
    rw [WellFormed] at hv
    exact ⟨hv.1.sublist (keys_revise_sublist _ members), wellFormedMembers_iff.2 hchildren⟩
  | _ => trivial

/-- Taking out parts leaves a value well formed. -/
theorem WellFormed.without {v : Value} (hv : v.WellFormed) (gone : Location → Bool) :
    (v.without gone).WellFormed := by
  induction v using induction_on_children generalizing gone with
  | step v ih =>
    rw [without_eq]
    refine hv.revise fun node mem w hw => ?_
    split at hw
    · cases hw
    · cases hw
      exact ih node mem (hv.of_mem_children (mem_children_of_mem_childNodes mem)) _

end JsonDoc.Value
