import JsonDoc.Edit.Remove
import JsonDoc.Proofs.Edit.Step
import JsonDoc.Proofs.Select.First

/-!
# `JsonDoc.Proofs.Edit.Lead`: edits behind members and items

`Leads` says where segments lead that all lead to one child at most, and `Follows` what an edit
along segments has to do to be followed to that place: to go on in the child where a segment
leads to one, and in the chosen children where it fans out. Assignments do so, and removals in
front of the last segment. So an edit of a document is an edit of the node that the first
segments lead to (`Follows.append`).
-/

set_option autoImplicit false

namespace JsonDoc

/-! ### Where members and items lead -/

/-- The segments, each of which leads to one child, lead to the node at the location. -/
inductive Leads : List Segment → Value → Location → Value → Prop where
  | done {v : Value} : Leads [] v [] v
  | step {segment : Segment} {rest : List Segment} {v child w : Value} {step : Step}
      {location : Location} : segment.single → segment.choose v = [(step, child)] →
      Leads rest child location w → Leads (segment :: rest) v (step :: location) w

/-- A segment for a member or an item leads to one child or to none. -/
theorem choose_single {segment : Segment} (h : segment.single) (v : Value) :
    segment.choose v = [] ∨ ∃ step child, segment.choose v = [(step, child)] := by
  cases Segment.entry h {} [] v with
  | closed outcome idle none eq => exact .inl none
  | present step child here eq => exact .inr ⟨step, child, here⟩
  | missing step none absent takes reaches eq => exact .inl none

/-- A descent is no segment for one child. -/
theorem single_ne_descent {segment : Segment} (h : segment.single) : segment ≠ .descent := by
  rintro rfl
  cases h

/-- What a search finds along members and items is where they lead. -/
theorem exists_leads_of_searchFirst {segments : List Segment}
    (hsingle : ∀ segment ∈ segments, segment.single) {budget : Nat} {v : Value} {node : Node}
    (h : searchFirst segments budget v = .found node) :
    Leads segments v node.location node.value := by
  induction segments generalizing v node with
  | nil =>
    cases h
    exact .done
  | cons segment rest ih =>
    obtain ⟨hsegment, hrest⟩ := List.forall_mem_cons.1 hsingle
    rw [searchFirst_cons (single_ne_descent hsegment)] at h
    obtain hchoose | ⟨step, child, hchoose⟩ := choose_single hsegment v
    · rw [hchoose] at h
      cases h
    · rw [hchoose, searchEach] at h
      cases hchild : searchFirst rest budget child with
      | found last =>
        rw [hchild] at h
        cases h
        exact .step hsegment hchoose (ih hrest hchild)
      | absent =>
        rw [hchild] at h
        cases h
      | gaveUp =>
        rw [hchild] at h
        cases h

/-- Members and items along which a value is read lead to some node. -/
theorem Path.exists_leads_of_get {path : Path} (hsingle : ∀ segment ∈ path.segments, segment.single)
    {limits : Limits} {root v : Value} (h : path.get limits root = .ok v) :
    ∃ location, Leads path.segments root location v := by
  obtain ⟨node, hnode, rfl⟩ := Path.exists_found_of_get h
  exact ⟨node.location, exists_leads_of_searchFirst hsingle hnode⟩

section
variable {front : List Segment} {root v : Value} {location : Location}

/-- The node that segments lead to in a well-formed document is well formed. -/
theorem Leads.wellFormed (h : Leads front root location v) (hroot : root.WellFormed) :
    v.WellFormed := by
  induction h with
  | done => exact hroot
  | step hsegment hchoose _ ih => exact ih (hroot.of_child? (child?_of_choose hsegment hchoose))

/-- Putting a value below a child puts the changed child in its place. -/
theorem Value.putAt_cons {w child : Value} {step : Step} (h : w.child? step = some child)
    (rest : Location) (new : Value) :
    w.putAt (step :: rest) new = w.putChild step (child.putAt rest new) := by
  rw [putAt, h]

/-- The segments lead to what is put where they lead. -/
theorem Leads.putAt (h : Leads front root location v) (new : Value) :
    Leads front (root.putAt location new) location new := by
  induction h with
  | done => exact .done
  | step hsegment hchoose _ ih =>
    rw [Value.putAt_cons (child?_of_choose hsegment hchoose)]
    exact .step hsegment (choose_putChild hsegment hchoose _) ih

/-- Of two values put at one location the second stays. -/
theorem Leads.putAt_putAt (h : Leads front root location v) (a b : Value) :
    (root.putAt location a).putAt location b = root.putAt location b := by
  induction h with
  | done => rfl
  | step hsegment hchoose _ ih =>
    have hchild := child?_of_choose hsegment hchoose
    have takes := Value.takes_of_child? hchild
    rw [Value.putAt_cons hchild, Value.putAt_cons hchild,
      Value.putAt_cons (Value.child?_putChild takes _), Value.putChild_putChild takes, ih]

/-- Putting a node where it is changes nothing. -/
theorem Leads.putAt_self (h : Leads front root location v) (hroot : root.WellFormed) :
    root.putAt location v = root := by
  induction h with
  | done => rfl
  | step hsegment hchoose _ ih =>
    have hchild := child?_of_choose hsegment hchoose
    rw [Value.putAt_cons hchild, ih (hroot.of_child? hchild),
      Value.putChild_child? hroot.stepsDiffer hchild]

/-- A null has no nodes but itself. -/
theorem Leads.ne_null (h : Leads front root location v) (hv : front = [] → v ≠ .null) :
    root ≠ .null := by
  cases h with
  | done => exact hv rfl
  | step hsegment hchoose _ =>
    rintro rfl
    have hchild := child?_of_choose hsegment hchoose
    cases ‹Step› <;> cases hchild

end

/-! ### Following an edit -/

/-- The edit can be followed down to the last segments `tail`, and never reports that nothing was
found. -/
structure Follows (edit : List Segment → Value → Edited Value Nat) (tail : List Segment) :
    Prop where
  /-- It goes on in the child that a segment leads to. -/
  single : ∀ {segment : Segment} {v child : Value} {step : Step} (front : List Segment),
    segment.single → segment.choose v = [(step, child)] →
      edit (segment :: (front ++ tail)) v
        = ⟨v.putChild step (edit (front ++ tail) child).value, (edit (front ++ tail) child).outcome⟩
  /-- It goes on in the children that a segment chooses. -/
  fansOut : ∀ {segment : Segment} {v : Value}, segment.fansOut →
    v.kind = .array ∨ v.kind = .object →
      edit (segment :: tail) v = editChildren (editIf segment.accepts (edit tail)) v
  ne_notFound : ∀ v name, (edit tail v).outcome ≠ .error (.notFound name)

/-- An edit is an edit of the node that the first segments lead to. -/
theorem Follows.append {edit : List Segment → Value → Edited Value Nat} {tail : List Segment}
    (follows : Follows edit tail) {front : List Segment} {root v : Value} {location : Location}
    (h : Leads front root location v) (segments : List Segment) :
    edit (front ++ (segments ++ tail)) root
      = ⟨root.putAt location (edit (segments ++ tail) v).value,
          (edit (segments ++ tail) v).outcome⟩ := by
  induction h with
  | done => rfl
  | step hsegment hchoose _ ih =>
    rw [List.cons_append, ← List.append_assoc, follows.single _ hsegment hchoose, List.append_assoc,
      ih, Value.putAt_cons (child?_of_choose hsegment hchoose)]

/-! ### Assignments and removals -/

/-- An assignment goes on in the child that a segment leads to. -/
theorem assign_of_choose {segment : Segment} (h : segment.single) {v child : Value} {step : Step}
    (hchoose : segment.choose v = [(step, child)]) (limits : Limits) (new : Value)
    (rest : List Segment) :
    assign limits new (segment :: rest) v
      = ⟨v.putChild step (assign limits new rest child).value,
          (assign limits new rest child).outcome⟩ := by
  cases Segment.entry h limits rest v with
  | closed outcome idle none eq =>
    rw [none] at hchoose
    cases hchoose
  | present step child here eq =>
    rw [here] at hchoose
    cases hchoose
    exact eq new
  | missing step none absent takes reaches eq =>
    rw [none] at hchoose
    cases hchoose

/-- An assignment can be followed along the segments in front, whatever the last ones are. -/
theorem follows_assign (limits : Limits) (new : Value) (tail : List Segment) :
    Follows (assign limits new) tail where
  single _ hsegment hchoose := assign_of_choose hsegment hchoose limits new _
  fansOut := by
    intro segment v hfans hkind
    rcases assign_fansOut hfans limits tail v with ⟨hscalar, -⟩ | ⟨-, eq⟩
    · exact absurd (.inr hkind) hscalar
    · exact eq new
  ne_notFound v name := assign_ne_notFound limits new tail v name

/-- In front of the last segment a removal goes on as the segment says. -/
theorem remove_cons {rest : List Segment} (hrest : rest ≠ []) (limit budget : Nat)
    (segment : Segment) (v : Value) :
    remove limit (segment :: rest) budget v =
      match segment with
      | .property name => removeInMember (remove limit rest budget) name v
      | .index i => removeInItem (remove limit rest budget) i v
      | .wildcard => editChildren (remove limit rest budget) v
      | .filter condition => editChildren (editIf condition.holds (remove limit rest budget)) v
      | .descent => removeBelow limit (remove limit rest) budget v := by
  rw [remove.eq_def]
  exact if_neg (by rwa [List.isEmpty_iff])

/-- A removal goes on in the child that a segment leads to. -/
theorem remove_of_choose {segment : Segment} (h : segment.single) {v child : Value} {step : Step}
    (hchoose : segment.choose v = [(step, child)]) (limit budget : Nat) {rest : List Segment}
    (hrest : rest ≠ []) :
    remove limit (segment :: rest) budget v
      = ⟨v.putChild step (remove limit rest budget child).value,
          (remove limit rest budget child).outcome⟩ := by
  rw [remove_cons hrest]
  obtain ⟨name, rfl, rfl, hchild⟩ | ⟨i, items, place, rfl, rfl, rfl, hplace, hitem⟩ :=
    cases_of_choose h hchoose
  · cases v with
    | object members =>
      rw [Value.child?] at hchild
      simp only [removeInMember, hchild, Value.putChild]
    | _ => cases hchild
  · obtain ⟨lt, -⟩ := List.getElem?_eq_some_iff.1 hitem
    simp only [removeInItem, hplace, hitem, Value.putChild, if_pos lt]

/-- A removal goes on in the children that a segment accepts, if it is not the last one. -/
theorem remove_fansOut {segment : Segment} (h : segment.fansOut) (limit budget : Nat)
    {rest : List Segment} (hrest : rest ≠ []) (v : Value) :
    remove limit (segment :: rest) budget v
      = editChildren (editIf segment.accepts (remove limit rest budget)) v := by
  rw [remove_cons hrest]
  cases segment with
  | wildcard => rfl
  | filter => rfl
  | _ => cases h

/-- A removal in a descent never reports that nothing was found, if none below it does: that is left
to the end of the call. -/
theorem removeBelow_ne_notFound {limit : Nat} {edit : Nat → Value → Edited Value Nat}
    {name : String} (h : ∀ budget v, (edit budget v).outcome ≠ .error (.notFound name))
    (budget : Nat) (v : Value) :
    (removeBelow limit edit budget v).outcome ≠ .error (.notFound name) := by
  induction budget generalizing v with
  | zero => nofun
  | succ budget ih =>
    rw [removeBelow]
    have hhere := h (budget + 1) v
    split
    · next left e heq =>
      rw [heq] at hhere
      exact hhere
    · next left n heq =>
      -- The descent goes on in what the removal at this node has left.
      have hbelow := editChildren_ne_error ih left
      dsimp only
      cases houtcome : (editChildren (removeBelow limit edit budget) left).outcome with
      | ok m => nofun
      | error e =>
        rw [houtcome] at hbelow
        exact hbelow

/-- No removal along segments reports that nothing was found. Induction on the segments. -/
theorem remove_ne_notFound (limit : Nat) (segments : List Segment) (budget : Nat) (v : Value)
    (name : String) : (remove limit segments budget v).outcome ≠ .error (.notFound name) := by
  induction segments generalizing budget v with
  | nil => nofun
  | cons segment rest ih =>
    by_cases hrest : rest = []
    · subst hrest
      nofun
    · rw [remove_cons hrest]
      cases segment with
      | property =>
        simp only [removeInMember]
        split
        · split
          · exact ih budget _
          · nofun
        · nofun
      | index =>
        simp only [removeInItem]
        split
        · split
          · split
            · exact ih budget _
            · nofun
          · nofun
        · nofun
      | wildcard => exact editChildren_ne_error (ih budget) v
      | filter condition =>
        exact editChildren_ne_error (editIf_ne_error (ih budget) condition.holds) v
      | descent => exact removeBelow_ne_notFound ih budget v

/-- A removal can be followed along the segments in front, if some are left behind them. -/
theorem follows_remove (limit budget : Nat) {tail : List Segment} (h : tail ≠ []) :
    Follows (remove limit · budget) tail where
  single front hsegment hchoose :=
    remove_of_choose hsegment hchoose limit budget (List.append_ne_nil_of_right_ne_nil front h)
  fansOut hfans _ := remove_fansOut hfans limit budget h _
  ne_notFound v name := remove_ne_notFound limit tail budget v name

/-- A call to delete along any path but the one of the root itself is a removal along its
segments. -/
theorem Path.delete_eq {path : Path} (h : path.segments ≠ []) (limits : Limits) (root : Value) :
    path.delete limits root
      = (remove limits.maxDepth path.segments (limits.maxDepth + 1) root).finish path := by
  rw [delete]
  cases hsegments : path.segments with
  | nil => exact absurd hsegments h
  | cons => rfl

end JsonDoc
