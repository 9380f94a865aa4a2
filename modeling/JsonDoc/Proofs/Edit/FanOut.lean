import JsonDoc.Proofs.Edit.Lead

/-!
# `JsonDoc.Proofs.Edit.FanOut`: a fan-out as calls for single children

What a fan-out means is told by calls for single children: `Path.fanOut_eq_runCalls` says that
a whole call leaves what these leave, run one after the other, and comes to the same, a failure
on the way included.

A call for one child is an edit of the document with whatever stands in the places of the
children by then, `Follows.edit_child`. The induction over the children, `Follows.runCalls_eq`,
carries the values that the calls before have left. It says nothing of what the edit is and
serves assignments and removals alike.
-/

set_option autoImplicit false

namespace JsonDoc

/-! ### Calls one after the other -/

/-- Runs calls on a document one after the other. A call that finds nothing is passed over, and
any other failure ends the run with that failure. At its end the run has succeeded if a call has,
and otherwise has failed with `nothing`; `reached` says whether a call has succeeded before. -/
def runCalls (nothing : Error) : (reached : Bool) → List (Value → Edited Value Unit) → Value →
    Edited Value Unit
  | reached, [], v => ⟨v, if reached then .ok () else .error nothing⟩
  | reached, call :: calls, v =>
    match call v with
    | ⟨left, .ok _⟩ => runCalls nothing true calls left
    | ⟨left, .error (.notFound _)⟩ => runCalls nothing reached calls left
    | ⟨left, .error e⟩ => ⟨left, .error e⟩

/-- What has come of a run that counted nodes, where `reached` says whether some were counted
before. -/
def concluded (nothing : Error) (reached : Bool) : Except Error Nat → Except Error Unit
  | .ok n => if reached || decide (0 < n) then .ok () else .error nothing
  | .error e => .error e

/-- Nodes counted in front of a run count as reached before it. -/
theorem concluded_countMore (nothing : Error) (reached : Bool) (n : Nat)
    (outcome : Except Error Nat) :
    concluded nothing reached (countMore n outcome)
      = concluded nothing (reached || decide (0 < n)) outcome := by
  cases outcome with
  | error e => rfl
  | ok m =>
    have hpos : decide (0 < n + m) = (decide (0 < n) || decide (0 < m)) := by
      rw [Bool.eq_iff_iff]
      simp only [decide_eq_true_eq, Bool.or_eq_true]
      omega
    simp only [countMore, Except.map, concluded, hpos, Bool.or_assoc]

section
variable {nothing : Error} {reached : Bool} {call : Value → Edited Value Unit}
  {calls : List (Value → Edited Value Unit)} {v left : Value} {path : Path}

/-- A call that ends with a count goes on: whether it has found anything is added to what was
reached before. -/
theorem runCalls_of_ok {n : Nat} (h : call v = (⟨left, .ok n⟩ : Edited Value Nat).finish path) :
    runCalls nothing reached (call :: calls) v
      = runCalls nothing (reached || decide (0 < n)) calls left := by
  rw [runCalls, h]
  cases n with
  | zero => simp [Edited.finish]
  | succ n => simp [Edited.finish]

/-- A call that fails ends the run, unless it has only found nothing. -/
theorem runCalls_of_error {e : Error} (hne : ∀ name, e ≠ .notFound name)
    (h : call v = (⟨left, .error e⟩ : Edited Value Nat).finish path) :
    runCalls nothing reached (call :: calls) v = ⟨left, .error e⟩ := by
  rw [runCalls, h]
  cases e with
  | notFound name => exact absurd rfl (hne name)
  | _ => rfl

end

/-! ### Calls for single children -/

/-- The segment that leads where the step leads. -/
def Step.segment : Step → Segment
  | .key name => .property name
  | .item place => .index place

/-- The segment made of a step leads to one child at most. -/
theorem single_segment (step : Step) : step.segment.single := by
  cases step <;> rfl

/-- The segment made of a step leads to the child under that step. -/
theorem choose_segment {v child : Value} {step : Step} (h : v.child? step = some child) :
    step.segment.choose v = [(step, child)] := by
  cases step with
  | key name => exact choose_property h
  | item place =>
    cases v with
    | array items =>
      refine choose_index ?_ h
      rw [resolveIndex, if_pos (Int.natCast_nonneg place), Int.toNat_natCast]
    | _ => cases h

section
variable {edit : List Segment → Value → Edited Value Nat} {tail front : List Segment}
  {root container : Value} {location : Location}

/-- The edit for a single child, when other values already stand in the places of the children. -/
theorem Follows.edit_child (follows : Follows edit tail)
    (h : Leads front root location container) (differ : container.StepsDiffer)
    {items : List Value} (hlength : items.length = container.children.length) {place : Nat}
    {step : Step} {old item : Value} (hnode : container.childNodes[place]? = some (step, old))
    (hitem : items[place]? = some item) :
    edit (front ++ step.segment :: tail) (root.putAt location (container.withChildren items))
      = ⟨root.putAt location (container.withChildren (items.set place (edit tail item).value)),
          (edit tail item).outcome⟩ := by
  have hchoose := choose_segment (Value.child?_withChildren differ hlength hnode hitem)
  have hedit := follows.append (h.putAt (container.withChildren items)) [step.segment]
  have hsingle := follows.single [] (single_segment step) hchoose
  rw [List.singleton_append] at hedit
  rw [List.nil_append] at hsingle
  rw [hedit, hsingle, h.putAt_putAt, Value.putChild_withChildren differ hlength hnode]

/-- The calls for single children, run from some place among them on, come to what the edit of
these children comes to. -/
theorem Follows.runCalls_eq (follows : Follows edit tail)
    (h : Leads front root location container) (differ : container.StepsDiffer)
    {call : Step → Value → Edited Value Unit} {names : Step → Path}
    (hcall : ∀ step w, w.kind = container.kind → call step (root.putAt location w)
      = (edit (front ++ step.segment :: tail) (root.putAt location w)).finish (names step))
    (accepts : Value → Bool) (nothing : Error)
    {before after : List (Step × Value)} (hnodes : container.childNodes = before ++ after)
    {done : List Value} (hdone : done.length = before.length) (reached : Bool) :
    runCalls nothing reached
        ((after.filter fun node => accepts node.2).map fun node => call node.1)
        (root.putAt location (container.withChildren (done ++ after.map Prod.snd)))
      = ⟨root.putAt location (container.withChildren
            (done ++ (editEach (editIf accepts (edit tail)) [] 0 (after.map Prod.snd)).value)),
          concluded nothing reached
            (editEach (editIf accepts (edit tail)) [] 0 (after.map Prod.snd)).outcome⟩ := by
  induction after generalizing before done reached with
  | nil =>
    simp [runCalls, concluded, editEach]
  | cons node after ih =>
    obtain ⟨step, child⟩ := node
    -- The place of this child is done, with whatever value, and the run goes on behind it.
    have hbehind : container.childNodes = (before ++ [(step, child)]) ++ after := by
      rw [hnodes, List.append_assoc, List.singleton_append]
    have hnext (item : Value) (reached : Bool) := by
      have hlength : (done ++ [item]).length = (before ++ [(step, child)]).length := by
        rw [List.length_append, List.length_append, hdone]
        rfl
      exact ih hbehind hlength reached
    simp only [List.append_assoc, List.singleton_append] at hnext
    rw [List.map_cons]
    dsimp only
    cases haccepts : accepts child with
    | false =>
      rw [List.filter_cons_of_neg (by simp [haccepts])]
      have houtcome : (editIf accepts (edit tail) child).outcome = .ok 0 := by
        rw [editIf_of_passed_over haccepts]
      rw [hnext, editEach_cons_ok houtcome, editIf_of_passed_over haccepts, concluded_countMore]
      simp
    | true =>
      rw [List.filter_cons_of_pos (by simp [haccepts]), List.map_cons]
      dsimp only
      have hlength : (done ++ child :: after.map Prod.snd).length = container.children.length := by
        rw [← container.length_childNodes, hnodes]
        simp [hdone]
      have hnode : container.childNodes[before.length]? = some (step, child) := by
        rw [hnodes]
        simp
      have hitem : (done ++ child :: after.map Prod.snd)[before.length]? = some child := by
        rw [← hdone]
        simp
      have hedit := follows.edit_child h differ hlength hnode hitem
      rw [← hdone, List.set_append_right _ _ (Nat.le_refl _), Nat.sub_self, List.set_cons_zero]
        at hedit
      have hhere := hcall step _ (container.kind_withChildren (done ++ child :: after.map Prod.snd))
      rw [hedit] at hhere
      have haccepted := editIf_of_accepted haccepts (edit tail)
      cases houtcome : (edit tail child).outcome with
      | error e =>
        have hne (name : String) : e ≠ .notFound name := by
          rintro rfl
          exact follows.ne_notFound child name houtcome
        rw [houtcome] at hhere
        rw [runCalls_of_error hne hhere,
          editEach_cons_error (by rw [haccepted, houtcome]), haccepted]
        rfl
      | ok n =>
        rw [houtcome] at hhere
        rw [runCalls_of_ok hhere, hnext,
          editEach_cons_ok (by rw [haccepted, houtcome]), concluded_countMore, haccepted]

end

/-! ### Fan-outs -/

/-- The end of a call, in terms of what a run of calls comes to. -/
theorem Edited.finish_eq (edited : Edited Value Nat) (path : Path) :
    edited.finish path
      = ⟨edited.value, concluded (.notFound path.text) false edited.outcome⟩ := by
  rw [finish]
  split
  · next h => rw [h]; rfl
  · next n hzero h =>
    rw [h, concluded, Bool.false_or, if_pos (by simpa using Nat.pos_of_ne_zero hzero)]
  · next h => rw [h]; rfl

/-- The whole edit along a path with a fan-out is the run of the edits for single children. -/
theorem Follows.fanOut_eq {edit : List Segment → Value → Edited Value Nat}
    {front tail : List Segment} (follows : Follows edit tail) {root container : Value}
    {location : Location} (h : Leads front root location container) (hroot : root.WellFormed)
    (hkind : container.kind = .array ∨ container.kind = .object) {segment : Segment}
    (hsegment : segment.fansOut) (path : Path) (call : Step → Value → Edited Value Unit)
    (names : Step → Path)
    (hcall : ∀ step w, w.kind = container.kind → call step (root.putAt location w)
      = (edit (front ++ step.segment :: tail) (root.putAt location w)).finish (names step)) :
    (edit (front ++ segment :: tail) root).finish path
      = runCalls (.notFound path.text) false
          ((segment.choose container).map fun node => call node.1) root := by
  have differ := (h.wellFormed hroot).stepsDiffer
  -- The run starts with all children ahead of it and none done.
  have hnodes : container.childNodes = [] ++ container.childNodes := (List.nil_append _).symm
  have hdone : ([] : List Value).length = ([] : List (Step × Value)).length := rfl
  have hrun := follows.runCalls_eq h differ hcall segment.accepts (.notFound path.text) hnodes hdone
    false
  rw [List.nil_append, List.nil_append, container.childNodes_map_snd, container.withChildren_self,
    h.putAt_self hroot, ← choose_fansOut hsegment] at hrun
  have hedit := follows.append h [segment]
  rw [List.singleton_append, follows.fansOut hsegment hkind] at hedit
  rw [hrun, hedit, Edited.finish_eq]
  rfl

/-- Below a container stands no null. -/
theorem Leads.putAt_ne_null {front : List Segment} {root container : Value} {location : Location}
    (h : Leads front root location container)
    (hkind : container.kind = .array ∨ container.kind = .object) {w : Value}
    (hw : w.kind = container.kind) : root.putAt location w ≠ .null := by
  refine (h.putAt w).ne_null ?_
  rintro - rfl
  rcases hkind with hkind | hkind
  · exact Kind.noConfusion (hw.trans hkind)
  · exact Kind.noConfusion (hw.trans hkind)

/-- Where the first segments of a path lead to a container and the next one fans out, a call to
assign does what the calls for the children that it chooses do one after the other: it leaves the
same document, partial failures included, and comes to the same. A call to delete does so too,
unless the fan-out is the last segment, where it removes all the children at once. -/
theorem Path.fanOut_eq_runCalls {root container : Value} (hroot : root.WellFormed)
    {front : List Segment} {segment : Segment} (hfront : ∀ s ∈ front, s.single)
    (hsegment : segment.fansOut) (limits : Limits) {name : String}
    (hget : (⟨name, front⟩ : Path).get limits root = .ok container)
    (hkind : container.kind = .array ∨ container.kind = .object) (tail : List Segment)
    (text : String) (texts : Step → String) (new : Value) :
    (⟨text, front ++ segment :: tail⟩ : Path).set limits root new
        = runCalls (.notFound text) false
            ((segment.choose container).map fun node v =>
              (⟨texts node.1, front ++ node.1.segment :: tail⟩ : Path).set limits v new) root ∧
      (tail ≠ [] → (⟨text, front ++ segment :: tail⟩ : Path).delete limits root
        = runCalls (.notFound text) false
            ((segment.choose container).map fun node v =>
              (⟨texts node.1, front ++ node.1.segment :: tail⟩ : Path).delete limits v) root) := by
  obtain ⟨location, h⟩ : ∃ location, Leads front root location container :=
    Path.exists_leads_of_get hfront hget
  have hne (s : Segment) : front ++ s :: tail ≠ [] := List.append_ne_nil_of_right_ne_nil front nofun
  let single (step : Step) : Path := ⟨texts step, front ++ step.segment :: tail⟩
  constructor
  · -- A document that contains a container is no null, so it is not made on the way.
    have hwhole : root ≠ .null := by
      rw [← h.putAt_self hroot]
      exact h.putAt_ne_null hkind rfl
    rw [Path.set_eq (hne segment) hwhole]
    refine (follows_assign limits new tail).fanOut_eq h hroot hkind hsegment _
      (fun step v => (single step).set limits v new) single fun step w hw => ?_
    exact Path.set_eq (hne step.segment) (h.putAt_ne_null hkind hw) limits new
  · intro htail
    rw [Path.delete_eq (hne segment)]
    refine (follows_remove limits.maxDepth (limits.maxDepth + 1) htail).fanOut_eq h hroot hkind
      hsegment _ (fun step v => (single step).delete limits v) single fun step w _ => ?_
    exact Path.delete_eq (hne step.segment) limits _

/-- Assigning in all rows stops at the second, which is no object, as the calls for the rows do;
what was made in the first stays. Deleting passes it over. -/
theorem Path.fanOut_eq_runCalls_rows :
    ∃ path : Path, ∃ root left : Value, ∃ single : Nat → Path,
      path.set ⟨0, 0, 0⟩ root (.bool true)
        = ⟨left, .error (.typeMismatch (.property "n") .string)⟩ ∧
      runCalls (.notFound path.text) false
          ([0, 1, 2].map fun row v => (single row).set ⟨0, 0, 0⟩ v (.bool true)) root
        = ⟨left, .error (.typeMismatch (.property "n") .string)⟩ ∧
      path.delete ⟨0, 0, 0⟩ left
        = runCalls (.notFound path.text) false
          ([0, 1, 2].map fun row v => (single row).delete ⟨0, 0, 0⟩ v) left := by
  let front : List Segment := [.property "rows"]
  let tail : List Segment := [.property "n", .property "m"]
  let made : Value := .object [("n", .object [("m", .bool true)])]
  have hfront : ∀ s ∈ front, s.single := by simp [front, Segment.single]
  have hroot : (Value.object [("rows", .array [.object [], .string "", .null])]).WellFormed := by
    simp [Members.keys]
  have hleft : (Value.object [("rows", .array [made, .string "", .null])]).WellFormed := by
    simp [made, Members.keys]
  have hsegment : Segment.wildcard.fansOut := rfl
  have hget (items : List Value) : (⟨"$.rows", front⟩ : Path).get ⟨0, 0, 0⟩
      (.object [("rows", .array items)]) = .ok (.array items) := rfl
  have hset := (Path.fanOut_eq_runCalls hroot hfront hsegment ⟨0, 0, 0⟩ (hget _) (.inl rfl) tail
    "$.rows[*].n.m" (fun _ => "") (.bool true)).1
  have hdelete := (Path.fanOut_eq_runCalls hleft hfront hsegment ⟨0, 0, 0⟩ (hget _) (.inl rfl) tail
    "$.rows[*].n.m" (fun _ => "") (.bool true)).2
  exact ⟨_, _, _, fun row => ⟨"", front ++ .index row :: tail⟩, rfl, hset.symm.trans rfl,
    hdelete (List.cons_ne_nil _ _)⟩

end JsonDoc
