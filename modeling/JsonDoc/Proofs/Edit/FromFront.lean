import JsonDoc.Path.Parser
import JsonDoc.Proofs.Edit.Lens
import JsonDoc.Proofs.Remove.Removal

/-!
# `JsonDoc.Proofs.Edit.FromFront`: indices from the front and from the end

An index that counts from the end of an array is resolved wherever a call meets one: by the search,
by an assignment, and by a removal both on its way and at its last segment. All of them resolve it
in the same way, so that a call along members and items depends on where its segments lead
(`Leads`) and on nothing else: `Path.get_of_leads`, `Path.set_of_leads` and `Path.delete_of_leads`
tell what it does by the location.

`fromFront` writes each index of a path as one that counts from the front. The segments lead where
they led before, so that every call stays what it was (`Path.calls_fromFront`). An index that counts
too far back leads nowhere, and `Path.calls_outside` are the answers.
-/

set_option autoImplicit false

namespace JsonDoc

/-! ### What a call does where its segments lead -/

/-- The search goes on where the first segments lead. -/
theorem searchFirst_of_leads {front : List Segment} {root v : Value} {location : Location}
    (h : Leads front root location v) (rest : List Segment) (budget : Nat) :
    searchFirst (front ++ rest) budget root
      = location.foldr Search.under (searchFirst rest budget v) := by
  induction h with
  | done => rfl
  | step hsegment hchoose _ ih =>
    rw [List.cons_append, searchFirst_cons (single_ne_descent hsegment), hchoose, searchEach, ih,
      List.foldr_cons]
    -- With no other child to go on with, nothing found below this one is nothing found.
    split
    · next habsent =>
      rw [habsent]
      rfl
    · rfl

/-- A node found at the end of a location, seen from its start. -/
theorem foldr_under_found (location : Location) (node : Node) :
    location.foldr Search.under (.found node) = .found ⟨location ++ node.location, node.value⟩ := by
  induction location with
  | nil => rfl
  | cons step rest ih =>
    rw [List.foldr_cons, ih]
    rfl

/-- If there is none at the end, there is none from the start. -/
theorem foldr_under_absent (location : Location) :
    location.foldr Search.under .absent = .absent := by
  induction location with
  | nil => rfl
  | cons step rest ih =>
    rw [List.foldr_cons, ih]
    rfl

namespace Value

/-- The container without the child that a step leads to. -/
def eraseChild (v : Value) (step : Step) : Value :=
  match v, step with
  | object members, .key name => object (Members.erase members name)
  | array items, .item place => array (items.eraseIdx place)
  | v, _ => v

/-- The value without the node at a location. The value itself cannot be taken out. -/
def eraseAt (v : Value) : Location → Value
  | [] => v
  | [step] => v.eraseChild step
  | step :: next :: rest =>
    match v.child? step with
    | some child => v.putChild step (child.eraseAt (next :: rest))
    | none => v

end Value

section
variable {segment : Segment} {v child : Value} {step : Step}

/-- At its last segment a removal takes out the child that the segment leads to. -/
theorem removeHere_of_choose (h : segment.single) (hchoose : segment.choose v = [(step, child)]) :
    removeHere segment v = (v.eraseChild step, 1) := by
  obtain ⟨name, rfl, rfl, hchild⟩ | ⟨i, items, place, rfl, rfl, rfl, hplace, hitem⟩ :=
    cases_of_choose h hchoose
  · cases v with
    | object members =>
      have present : Members.has members name = true := Option.isSome_of_eq_some hchild
      rw [removeHere, if_pos present]
      rfl
    | _ => cases hchild
  · obtain ⟨lt, -⟩ := List.getElem?_eq_some_iff.1 hitem
    simp only [removeHere, hplace, if_pos lt]
    rfl

/-- The last segment of a path removes what it chooses. -/
theorem remove_singleton (limit : Nat) (segment : Segment) (budget : Nat) (v : Value) :
    remove limit [segment] budget v
      = ⟨(removeHere segment v).1, .ok (removeHere segment v).2⟩ := rfl

/-- A removal along members and items takes out the node that they lead to. -/
theorem remove_of_leads {segments : List Segment} {root : Value} {location : Location}
    (h : Leads segments root location v) (hsegments : segments ≠ []) (limit budget : Nat) :
    remove limit segments budget root = ⟨root.eraseAt location, .ok 1⟩ := by
  induction h with
  | done => exact absurd rfl hsegments
  | @step segment rest root child w step location hsegment hchoose hrest ih =>
    cases hrest with
    | done =>
      rw [remove_singleton, removeHere_of_choose hsegment hchoose]
      rfl
    | step =>
      rw [remove_of_choose hsegment hchoose _ _ (List.cons_ne_nil _ _), ih (List.cons_ne_nil _ _),
        Value.eraseAt, child?_of_choose hsegment hchoose]

end

namespace Path

section
variable {path : Path} {root v : Value} {location : Location}

/-- Reading finds the node to which the segments lead. -/
theorem get_of_leads (h : Leads path.segments root location v) (limits : Limits) :
    path.get limits root = .ok v := by
  have hsearch := searchFirst_of_leads h [] (limits.maxDepth + 1)
  rw [List.append_nil, searchFirst, foldr_under_found] at hsearch
  rw [get, hsearch]

/-- Assigning puts the value where the segments lead. -/
theorem set_of_leads (h : Leads path.segments root location v) (hpath : path.segments ≠ [])
    (limits : Limits) (new : Value) :
    path.set limits root new = ⟨root.putAt location new, .ok ()⟩ := by
  have hassign := (follows_assign limits new []).append h []
  simp only [List.append_nil] at hassign
  rw [set_eq hpath (h.ne_null fun hnil => absurd hnil hpath), hassign, assign_nil]
  rfl

/-- Removing takes out the node to which the segments lead. -/
theorem delete_of_leads (h : Leads path.segments root location v) (hpath : path.segments ≠ [])
    (limits : Limits) : path.delete limits root = ⟨root.eraseAt location, .ok ()⟩ := by
  rw [delete_eq hpath, remove_of_leads h hpath]
  rfl

end

end Path

/-! ### Indices that count from the front -/

/-- The segment as it counts from the front: the length of the array is added to an index that is
negative. -/
def Segment.fromFront (segment : Segment) (v : Value) : Segment :=
  match segment, v with
  | .index i, .array items => if i < 0 then .index (items.length + i) else .index i
  | segment, _ => segment

/-- The segments as they count from the front, each from that of the array to which those before it
lead. Behind a segment that leads nowhere there is no array to count in. -/
def fromFront : List Segment → Value → List Segment
  | [], _ => []
  | segment :: rest, v =>
    segment.fromFront v ::
      match segment.choose v with
      | [] => rest
      | (_, child) :: _ => fromFront rest child

/-- The place to which a negative index counts back is at length plus index. -/
theorem resolveIndex_add {length place : Nat} {i : Int} (hi : i < 0)
    (h : resolveIndex length i = some place) :
    0 ≤ length + i ∧ resolveIndex length (length + i) = some place := by
  rw [resolveIndex, if_neg (by omega)] at h
  split at h
  · next nonneg => exact ⟨nonneg, by rwa [resolveIndex, if_pos nonneg]⟩
  · cases h

section
variable {segment : Segment} {v child : Value} {step : Step}

/-- Counting from the front leaves a segment one that leads to one child at most. -/
theorem single_fromFront (h : segment.single) (v : Value) : (segment.fromFront v).single := by
  rw [Segment.fromFront.eq_def]
  split
  · split <;> rfl
  · exact h

/-- A segment that leads to a child leads to the same one when it counts from the front. -/
theorem choose_fromFront (h : segment.single) (hchoose : segment.choose v = [(step, child)]) :
    (segment.fromFront v).choose v = [(step, child)] := by
  obtain ⟨name, rfl, -, -⟩ | ⟨i, items, place, rfl, rfl, rfl, hplace, hitem⟩ :=
    cases_of_choose h hchoose
  · exact hchoose
  · rw [Segment.fromFront]
    split
    · next hi => exact choose_index (resolveIndex_add hi hplace).2 hitem
    · exact hchoose

/-- An index that leads anywhere is not negative when it counts from the front. -/
theorem nonneg_of_fromFront (h : segment.single) (hchoose : segment.choose v = [(step, child)])
    {i : Int} (hi : segment.fromFront v = .index i) : 0 ≤ i := by
  obtain ⟨name, rfl, -, -⟩ | ⟨index, items, place, rfl, rfl, rfl, hplace, -⟩ :=
    cases_of_choose h hchoose
  · cases hi
  · rw [Segment.fromFront] at hi
    split at hi
    · next hneg =>
      cases hi
      exact (resolveIndex_add hneg hplace).1
    · next hnonneg =>
      cases hi
      exact Int.not_lt.1 hnonneg

end

section
variable {segments : List Segment} {root v : Value} {location : Location}

/-- Behind a segment that leads to a child the rest counts from that child on. -/
theorem fromFront_cons {segment : Segment} {child : Value} {step : Step}
    (hchoose : segment.choose v = [(step, child)]) (rest : List Segment) :
    fromFront (segment :: rest) v = segment.fromFront v :: fromFront rest child := by
  rw [fromFront, hchoose]

/-- Counting from the front leaves as many segments as there are. -/
theorem fromFront_ne_nil (h : segments ≠ []) (v : Value) : fromFront segments v ≠ [] := by
  cases segments with
  | nil => exact absurd rfl h
  | cons segment rest => exact List.cons_ne_nil _ _

/-- Segments lead to the same place when they count from the front. -/
theorem Leads.fromFront (h : Leads segments root location v) :
    Leads (fromFront segments root) root location v := by
  induction h with
  | done => exact .done
  | step hsegment hchoose _ ih =>
    rw [fromFront_cons hchoose]
    exact .step (single_fromFront hsegment _) (choose_fromFront hsegment hchoose) ih

/-- No index is negative among segments that lead to a node and count from the front. -/
theorem Leads.nonneg_of_mem_fromFront (h : Leads segments root location v) {i : Int}
    (mem : .index i ∈ JsonDoc.fromFront segments root) : 0 ≤ i := by
  induction h with
  | done => cases mem
  | step hsegment hchoose _ ih =>
    rw [fromFront_cons hchoose] at mem
    obtain hhere | hrest := List.mem_cons.1 mem
    · exact nonneg_of_fromFront hsegment hchoose hhere.symm
    · exact ih hrest

end

/-! ### Indices outside -/

/-- A negative index with more than the length of the array leads to no place. -/
theorem resolveIndex_outside {length : Nat} {i : Int} (h : i < -length) :
    resolveIndex length i = none := by
  rw [resolveIndex, if_neg (by omega), if_neg (by omega)]

section
variable {items : List Value} {i : Int} {rest : List Segment}

/-- An index before the first item leads nowhere. -/
theorem choose_outside (h : i < -items.length) : (Segment.index i).choose (.array items) = [] := by
  simp only [Segment.choose, resolveIndex_outside h]

/-- A search along such an index finds nothing. -/
theorem searchFirst_outside (h : i < -items.length) {budget : Nat} :
    searchFirst (.index i :: rest) budget (.array items) = .absent := by
  rw [searchFirst_cons Segment.noConfusion, choose_outside h]
  rfl

/-- A removal along such an index removes nothing and does not fail. -/
theorem remove_outside (h : i < -items.length) {limit budget : Nat} :
    remove limit (.index i :: rest) budget (.array items) = ⟨.array items, .ok 0⟩ := by
  cases rest with
  | nil => rw [remove_singleton, removeHere_of_choose_nil rfl (choose_outside h)]
  | cons next rest => exact remove_of_choose_nil rfl (choose_outside h) (List.cons_ne_nil _ _)

/-- Nothing is padded in front of an array, whatever it may grow by. -/
theorem assign_outside (h : i < -items.length) {limits : Limits} {new : Value} :
    assign limits new (.index i :: rest) (.array items)
      = ⟨.array items, .error (.outOfBounds ⟨i, items.length⟩)⟩ := by
  rw [assign_cons_of_ne_null Value.noConfusion]
  simp only [assignStep, assignItem, resolveIndex_outside h]

end

/-! ### Whole calls -/

namespace Path

section
variable {path front : Path} {root : Value}

/-- The answers where an index counts back beyond the first item. -/
theorem calls_outside {location : Location} {items : List Value} {i : Int} {rest : List Segment}
    (hpath : path.segments = front.segments ++ .index i :: rest)
    (hfront : Leads front.segments root location (.array items)) (hroot : root.WellFormed)
    (hi : i < -items.length) (limits : Limits) :
    path.get limits root = .error (.notFound path.text) ∧
      path.delete limits root = ⟨root, .error (.notFound path.text)⟩ ∧
      ∀ new, path.set limits root new = ⟨root, .error (.outOfBounds ⟨i, items.length⟩)⟩ := by
  have hne : path.segments ≠ [] := by
    rw [hpath]
    exact List.append_ne_nil_of_right_ne_nil _ (List.cons_ne_nil _ _)
  -- The array is put back as it was, and so the document is what it was.
  have hsame : root.putAt location (.array items) = root := hfront.putAt_self hroot
  refine ⟨?_, ?_, ?_⟩
  · rw [get, hpath, searchFirst_of_leads hfront, searchFirst_outside hi, foldr_under_absent]
  · have hfollows := (follows_remove limits.maxDepth (limits.maxDepth + 1)
      (List.cons_ne_nil (.index i) rest)).append hfront []
    rw [List.nil_append, remove_outside hi, hsame] at hfollows
    rw [delete_eq hne, hpath, hfollows]
    rfl
  · intro new
    have hfollows := (follows_assign limits new (.index i :: rest)).append hfront []
    rw [List.nil_append, assign_outside hi, hsame] at hfollows
    rw [set_eq hne (hfront.ne_null fun _ => Value.noConfusion), hpath, hfollows]
    rfl

/-- Calls along members and items do not depend on how their indices count. If the path leads
somewhere, then with every negative index replaced by length plus index, each in the array in which
it counts, it is read, assigned and removed with the same answer and the same document left. If it
leads to an array and goes on with an index that counts back beyond the first item, then nothing is
found, an assignment reports the index and the length, and the document stays as it is. -/
theorem calls_fromFront (hpath : path.segments ≠ []) (hsingle : ∀ s ∈ path.segments, s.single)
    (hroot : root.WellFormed) (limits : Limits) :
    (∀ v, path.get limits root = .ok v →
      (∀ i, .index i ∈ fromFront path.segments root → 0 ≤ i) ∧
        ∀ other : Path, other.segments = fromFront path.segments root →
          other.get limits root = path.get limits root ∧
            (∀ new, other.set limits root new = path.set limits root new) ∧
            other.delete limits root = path.delete limits root) ∧
      ∀ (front : Path) (i : Int) (rest : List Segment) (items : List Value),
        path.segments = front.segments ++ .index i :: rest →
        front.get limits root = .ok (.array items) → i < -items.length →
          path.get limits root = .error (.notFound path.text) ∧
            path.delete limits root = ⟨root, .error (.notFound path.text)⟩ ∧
            ∀ new, path.set limits root new
              = ⟨root, .error (.outOfBounds ⟨i, items.length⟩)⟩ := by
  constructor
  · intro v hget
    -- What a call does is told by the location alone, and both paths lead to the same one.
    obtain ⟨location, hleads⟩ := exists_leads_of_get hsingle hget
    refine ⟨fun i mem => hleads.nonneg_of_mem_fromFront mem, ?_⟩
    intro other hother
    have hsame : Leads other.segments root location v := by
      rw [hother]
      exact hleads.fromFront
    have hne : other.segments ≠ [] := by
      rw [hother]
      exact fromFront_ne_nil hpath root
    refine ⟨?_, ?_, ?_⟩
    · rw [get_of_leads hsame, hget]
    · intro new
      rw [set_of_leads hsame hne, set_of_leads hleads hpath]
    · rw [delete_of_leads hsame hne, delete_of_leads hleads hpath]
  · intro front i rest items hsegments hget hi
    have hfront : ∀ s ∈ front.segments, s.single := by
      intro s mem
      refine hsingle s ?_
      rw [hsegments]
      exact List.mem_append_left _ mem
    obtain ⟨location, hleads⟩ := exists_leads_of_get hfront hget
    exact calls_outside hsegments hleads hroot hi limits

end

/-- The arrays on the way have two, two and three items, and the least of all indices counts back
beyond the first of two. -/
theorem calls_fromFront_nested :
    ∃ path other beyond : Path, ∃ root : Value,
      Path.compile "$[-1][-1][-2]" = .ok path ∧ Path.compile "$[1][1][1]" = .ok other ∧
      Path.compile "$[-1][-9223372036854775808].a" = .ok beyond ∧
      root = .array [.null, .array [.null, .array [.null, .bool true, .null]]] ∧
      other.get {} root = .ok (.bool true) ∧
      other.delete {} root = path.delete {} root ∧
      (∀ new, other.set {} root new = path.set {} root new) ∧
      beyond.get {} root = .error (.notFound "$[-1][-9223372036854775808].a") ∧
      ∀ new, beyond.set {} root new
        = ⟨root, .error (.outOfBounds ⟨-9223372036854775808, 2⟩)⟩ := by
  let path : Path := ⟨"$[-1][-1][-2]", [.index (-1), .index (-1), .index (-2)]⟩
  let other : Path := ⟨"$[1][1][1]", [.index 1, .index 1, .index 1]⟩
  let front : Path := ⟨"$[-1]", [.index (-1)]⟩
  let beyond : Path := ⟨"$[-1][-9223372036854775808].a",
    [.index (-1), .index (-9223372036854775808), .property "a"]⟩
  let inner : Value := .array [.null, .bool true, .null]
  let root : Value := .array [.null, .array [.null, inner]]
  have hpath : Path.compile path.text = .ok path := by decide +kernel
  have hother : Path.compile other.text = .ok other := by decide +kernel
  have hbeyond : Path.compile beyond.text = .ok beyond := by decide +kernel
  have hroot : root.WellFormed := by simp [root, inner]
  have hne : path.segments ≠ [] := List.cons_ne_nil _ _
  have hneBeyond : beyond.segments ≠ [] := List.cons_ne_nil _ _
  have hcalls := calls_fromFront hne (by simp [path, Segment.single]) hroot {}
  have hcallsBeyond := calls_fromFront hneBeyond (by simp [beyond, Segment.single]) hroot {}
  obtain ⟨-, hsame⟩ := hcalls.1 (.bool true) rfl
  obtain ⟨hget, hset, hdelete⟩ := hsame other rfl
  obtain ⟨hnone, -, houtside⟩ :=
    hcallsBeyond.2 front (-9223372036854775808) [.property "a"] [.null, inner] rfl rfl (by decide)
  exact ⟨path, other, beyond, root, hpath, hother, hbeyond, rfl, hget, hdelete, hset, hnone,
    houtside⟩

end Path

end JsonDoc
