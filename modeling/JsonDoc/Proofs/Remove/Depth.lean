import JsonDoc.Json.Writer
import JsonDoc.Proofs.Edit.Lead
import JsonDoc.Proofs.Json.Built
import JsonDoc.Proofs.Remove.Agreement
import JsonDoc.Proofs.Select.First

/-!
# `JsonDoc.Proofs.Remove.Depth`: removals make no value deeper

A removal takes children out of containers or goes on in them, so no value is deeper after it than
before (`depth_remove_le`), whether it succeeds or gives up half way. And it gives up only where
containers are nested deeper than its budget of steps allows (`exists_ok_remove_of_depth_lt`).

Reading, removing and writing measure a document by one limit, each in its own way: the reader
counts the containers that are open, a walk the steps that it goes down, to scalars as well, and the
writer the containers of the finished value. `Value.answers_of_parse` says that these agree: what
was read within a limit can be searched, edited and written within it, however often parts of it
are removed.
-/

set_option autoImplicit false

namespace JsonDoc

section
variable {segment : Segment} {step : Step} {v old new child : Value}
  {edit : Value → Edited Value Nat}

/-! ### The children that are left -/

/-- Taking out children leaves a container of the same kind. -/
theorem kind_removeHere (segment : Segment) (v : Value) :
    (removeHere segment v).1.kind = v.kind := by
  rw [removeHere.eq_def]
  split
  · split <;> rfl
  · split
    · split <;> rfl
    · rfl
  all_goals rfl

/-- The last segment only takes children out. -/
theorem mem_children_of_removeHere (mem : child ∈ (removeHere segment v).1.children) :
    child ∈ v.children := by
  rw [removeHere.eq_def] at mem
  split at mem
  · split at mem
    · obtain ⟨m, hm, rfl⟩ := List.mem_map.1 mem
      exact List.mem_map_of_mem (List.mem_of_mem_eraseP hm)
    · exact mem
  · split at mem
    · split at mem
      · exact List.mem_of_mem_eraseIdx mem
      · exact mem
    · exact mem
  · cases mem
  · cases mem
  · exact List.mem_of_mem_filter mem
  · obtain ⟨m, hm, rfl⟩ := List.mem_map.1 mem
    exact List.mem_map_of_mem (List.mem_of_mem_filter hm)
  · exact mem

/-- A child put in place of another is the only one that is new. -/
theorem Value.mem_children_putChild (h : v.child? step = some old)
    (mem : child ∈ (v.putChild step new).children) : child = new ∨ child ∈ v.children := by
  rw [child?.eq_def] at h
  split at h
  · exact Members.mem_values_put mem
  · obtain ⟨lt, -⟩ := List.getElem?_eq_some_iff.1 h
    rw [putChild, if_pos lt] at mem
    exact (List.mem_or_eq_of_mem_set mem).symm
  · cases h

/-- The children after an edit are some that were edited and some that were not reached. -/
theorem mem_children_editChildren (mem : child ∈ (editChildren edit v).value.children) :
    child ∈ v.children ∨ ∃ old ∈ v.children, (edit old).value = child := by
  rw [editChildren, Value.children_withChildren (length_editEach edit v.children)] at mem
  cases eachRun edit v.children with
  | all each outcome value =>
    rw [value] at mem
    exact .inr (List.mem_map.1 mem)
  | failed before last after e split each here outcome value =>
    -- The child where the edit failed may be changed as well; those behind it are not reached.
    rw [value, List.mem_append, List.mem_map, List.mem_cons] at mem
    rw [split]
    obtain ⟨old, hold, rfl⟩ | rfl | mem := mem
    · exact .inr ⟨old, List.mem_append_left _ hold, rfl⟩
    · exact .inr ⟨last, List.mem_append_right _ List.mem_cons_self, rfl⟩
    · exact .inl (List.mem_append_right _ (List.mem_cons_of_mem _ mem))

/-! ### Depth -/

/-- Taking out children makes no value deeper. -/
theorem depth_removeHere_le (segment : Segment) (v : Value) :
    (removeHere segment v).1.depth ≤ v.depth := by
  refine Value.depth_le_of_children (kind_removeHere segment v) fun child mem => ?_
  exact ⟨child, mem_children_of_removeHere mem, Nat.le_refl _⟩

/-- A child that is no deeper than the one it replaces makes no value deeper. -/
theorem depth_putChild_le (h : v.child? step = some old) (hnew : new.depth ≤ old.depth) :
    (v.putChild step new).depth ≤ v.depth := by
  refine Value.depth_le_of_children (Value.kind_putChild h new) fun child mem => ?_
  obtain rfl | hold := Value.mem_children_putChild h mem
  · exact ⟨old, Value.mem_children_of_child? h, hnew⟩
  · exact ⟨child, hold, Nat.le_refl _⟩

/-- An edit that makes no child deeper makes no value deeper. -/
theorem depth_editChildren_le (h : ∀ child, (edit child).value.depth ≤ child.depth) (v : Value) :
    (editChildren edit v).value.depth ≤ v.depth := by
  refine Value.depth_le_of_children (Value.kind_withChildren v _) fun child mem => ?_
  obtain hold | ⟨old, hold, rfl⟩ := mem_children_editChildren mem
  · exact ⟨child, hold, Nat.le_refl _⟩
  · exact ⟨old, hold, h old⟩

/-- Passing children over makes none of them deeper. -/
theorem depth_editIf_le (h : ∀ child, (edit child).value.depth ≤ child.depth)
    (choose : Value → Bool) (v : Value) : (editIf choose edit v).value.depth ≤ v.depth := by
  rw [editIf]
  split
  · exact h v
  · exact Nat.le_refl _

/-! ### Success -/

/-- A run over the children succeeds if the edit does at each of them. -/
theorem exists_ok_editChildren (h : ∀ child ∈ v.children, ∃ n, (edit child).outcome = .ok n) :
    ∃ n, (editChildren edit v).outcome = .ok n := by
  rw [editChildren]
  cases eachRun edit v.children with
  | all each outcome value => exact ⟨_, outcome⟩
  | failed before last after e split each here outcome value =>
    have mem : last ∈ v.children := by
      rw [split]
      exact List.mem_append_right _ List.mem_cons_self
    obtain ⟨n, hn⟩ := h last mem
    rw [here] at hn
    cases hn

/-- Passing a value over is no failure. -/
theorem exists_ok_editIf (h : ∃ n, (edit v).outcome = .ok n) (choose : Value → Bool) :
    ∃ n, (editIf choose edit v).outcome = .ok n := by
  rw [editIf]
  split
  · exact h
  · exact ⟨0, rfl⟩

end

/-! ### Descents -/

section
variable {limit : Nat} {edit : Nat → Value → Edited Value Nat}
  (shrinks : ∀ budget v, (edit budget v).value.depth ≤ v.depth)
include shrinks

/-- A descent makes no value deeper, if the removal at each node does not. Induction on the
budget. -/
theorem depth_removeBelow_le (budget : Nat) (v : Value) :
    (removeBelow limit edit budget v).value.depth ≤ v.depth := by
  induction budget generalizing v with
  | zero => exact Nat.le_refl _
  | succ budget ih =>
    have hhere := shrinks (budget + 1) v
    rw [removeBelow]
    split
    · next left e heq =>
      rw [heq] at hhere
      exact hhere
    · next left n heq =>
      rw [heq] at hhere
      exact Nat.le_trans (depth_editChildren_le ih left) hhere

/-- What is left at a node has children no deeper than the node had, so that each has steps enough
left. -/
theorem exists_ok_removeBelow_of_depth_lt
    (succeeds : ∀ {budget v}, v.depth < budget → ∃ n, (edit budget v).outcome = .ok n)
    {budget : Nat} {v : Value} (lt : v.depth < budget) :
    ∃ n, (removeBelow limit edit budget v).outcome = .ok n := by
  induction budget generalizing v with
  | zero => exact absurd lt (Nat.not_lt_zero _)
  | succ budget ih =>
    obtain ⟨here, hhere⟩ := succeeds lt
    rw [removeBelow_of_ok hhere]
    · exact ⟨_, rfl⟩
    · intro child mem
      -- A step down takes one from the budget, and at least one from the depth.
      have hchild := Value.depth_lt_of_mem_children mem
      have hleft := shrinks (budget + 1) v
      obtain ⟨count, hcount⟩ := ih (show child.depth < budget by omega)
      exact Edited.ok_count hcount

end

/-! ### Removals -/

section
variable {limit : Nat} {segments : List Segment} {budget : Nat} {v : Value}

/-- Whatever comes of a removal, the value that it leaves is no deeper. -/
theorem depth_remove_le (limit : Nat) (segments : List Segment) (budget : Nat) (v : Value) :
    (remove limit segments budget v).value.depth ≤ v.depth := by
  induction segments generalizing budget v with
  | nil => exact Nat.le_refl _
  | cons segment rest ih =>
    by_cases hrest : rest = []
    · -- The last segment takes children out of the value itself.
      subst hrest
      exact depth_removeHere_le segment v
    · obtain hsingle | hfans | rfl := segment.cases_kind
      · obtain hchoose | ⟨step, child, hchoose⟩ := choose_single hsingle v
        · rw [remove_of_choose_nil hsingle hchoose hrest]
        · rw [remove_of_choose hsingle hchoose limit budget hrest]
          exact depth_putChild_le (child?_of_choose hsingle hchoose) (ih budget child)
      · rw [remove_fansOut hfans limit budget hrest]
        exact depth_editChildren_le (depth_editIf_le (ih budget) segment.accepts) v
      · rw [remove_cons hrest]
        exact depth_removeBelow_le ih budget v

/-- A removal comes to its end if the budget has a step for every container, and one more. -/
theorem exists_ok_remove_of_depth_lt (lt : v.depth < budget) :
    ∃ n, (remove limit segments budget v).outcome = .ok n := by
  induction segments generalizing budget v with
  | nil => exact ⟨0, rfl⟩
  | cons segment rest ih =>
    by_cases hrest : rest = []
    · subst hrest
      exact ⟨(removeHere segment v).2, rfl⟩
    · -- Any segment but a descent hands its budget down to children that are less deep.
      have hchild : ∀ child ∈ v.children,
          ∃ n, (remove limit rest budget child).outcome = .ok n := by
        intro child mem
        exact ih (Nat.lt_trans (Value.depth_lt_of_mem_children mem) lt)
      obtain hsingle | hfans | rfl := segment.cases_kind
      · obtain hchoose | ⟨step, child, hchoose⟩ := choose_single hsingle v
        · exact ⟨0, by rw [remove_of_choose_nil hsingle hchoose hrest]⟩
        · rw [remove_of_choose hsingle hchoose limit budget hrest]
          exact hchild child (Value.mem_children_of_child? (child?_of_choose hsingle hchoose))
      · rw [remove_fansOut hfans limit budget hrest]
        exact exists_ok_editChildren fun child mem => exists_ok_editIf (hchild child mem) _
      · rw [remove_cons hrest]
        exact exists_ok_removeBelow_of_depth_lt (depth_remove_le limit rest) ih lt

end

/-! ### Documents -/

section
variable {path : Path} {limits : Limits} {v : Value}

/-- No call to delete makes a document deeper. -/
theorem Path.depth_delete_le (path : Path) (limits : Limits) (v : Value) :
    (path.delete limits v).value.depth ≤ v.depth := by
  rw [delete.eq_def]
  split
  · exact Nat.le_refl _
  · rw [Edited.finish_value]
    exact depth_remove_le _ _ _ v

/-- The document after a number of deletions, each with limits of its own and whatever comes of
it. -/
def Value.deleteAll (v : Value) (deletions : List (Path × Limits)) : Value :=
  deletions.foldl (fun v deletion => (deletion.1.delete deletion.2 v).value) v

/-- No run of deletions makes a document deeper. -/
theorem Value.depth_deleteAll_le (v : Value) (deletions : List (Path × Limits)) :
    (v.deleteAll deletions).depth ≤ v.depth := by
  induction deletions generalizing v with
  | nil => exact Nat.le_refl _
  | cons deletion rest ih =>
    have hfirst := deletion.1.depth_delete_le deletion.2 v
    exact Nat.le_trans (ih (deletion.1.delete deletion.2 v).value) hfirst

/-- A document within the depth limit of the options can be written. -/
theorem Value.exists_serialize_ok {options : WriteOptions} (h : v.depth ≤ options.maxDepth) :
    ∃ text, v.serialize options = .ok text := by
  rw [serialize, if_neg (Nat.not_lt.2 h)]
  exact ⟨_, rfl⟩

/-- No walk gives up in a document that is no deeper than the limit. -/
theorem Path.exists_select_of_depth_le (path : Path) (h : v.depth ≤ limits.maxDepth) :
    ∃ nodes, select path.segments (limits.maxDepth + 1) v = some nodes :=
  exists_select_of_within (Value.within_of_depth_le h) (Nat.lt_succ_self _)

/-- Reading the first value never reports the limit in a document that is no deeper than it. -/
theorem Path.get_ne_tooDeep (path : Path) (h : v.depth ≤ limits.maxDepth) (n : Nat) :
    path.get limits v ≠ .error (.tooDeep n) := by
  obtain ⟨nodes, hnodes⟩ := path.exists_select_of_depth_le h
  rw [Path.get_eq (searchFirst_eq_of_select hnodes)]
  split <;> nofun

/-- All values can be read in a document that is no deeper than the limit. -/
theorem Path.exists_getAll_ok (path : Path) (h : v.depth ≤ limits.maxDepth) :
    ∃ values, path.getAll limits v = .ok values := by
  obtain ⟨nodes, hnodes⟩ := path.exists_select_of_depth_le h
  exact ⟨_, Path.getAll_eq_ok_iff.2 ⟨nodes, hnodes, rfl⟩⟩

/-- Reading the values that satisfy a predicate never reports the limit on a document within it. -/
theorem Path.filter_ne_tooDeep (path : Path) (h : v.depth ≤ limits.maxDepth)
    (predicate : Option (Value → Bool)) (n : Nat) :
    path.filter limits v predicate ≠ .error (.tooDeep n) := by
  obtain ⟨values, hvalues⟩ := path.exists_getAll_ok h
  rw [Path.filter.eq_def]
  split
  · nofun
  · rw [hvalues]
    nofun

/-- A call to delete never reports the limit on a document within it. -/
theorem Path.delete_ne_tooDeep (path : Path) (h : v.depth ≤ limits.maxDepth) (n : Nat) :
    (path.delete limits v).outcome ≠ .error (.tooDeep n) := by
  rw [Path.delete.eq_def]
  split
  · nofun
  · obtain ⟨removed, hremoved⟩ : ∃ m,
        (remove limits.maxDepth path.segments (limits.maxDepth + 1) v).outcome = .ok m :=
      exists_ok_remove_of_depth_lt (Nat.lt_succ_of_le h)
    rw [Ne, Edited.finish_outcome_eq_error_iff, hremoved]
    rintro (⟨-, hfault⟩ | hfault)
    · cases hfault
    · cases hfault

end

/-- A document that was read within a limit, and whatever deletions leave of it, is no deeper than
the limit; under this limit or a greater one it can be written, and no question and no deletion
along any path gives up. -/
theorem Value.answers_of_parse {limit : Nat} {text : List UInt8} {v : Value}
    (h : Value.parse limit text = .ok v) (deletions : List (Path × Limits)) :
    (v.deleteAll deletions).depth ≤ limit ∧
      (∀ options : WriteOptions, limit ≤ options.maxDepth →
        ∃ written, (v.deleteAll deletions).serialize options = .ok written) ∧
      ∀ (path : Path) (limits : Limits), limit ≤ limits.maxDepth →
        (∃ values, path.getAll limits (v.deleteAll deletions) = .ok values) ∧
          ∀ n, path.get limits (v.deleteAll deletions) ≠ .error (.tooDeep n) ∧
            (∀ predicate,
              path.filter limits (v.deleteAll deletions) predicate ≠ .error (.tooDeep n)) ∧
            (path.delete limits (v.deleteAll deletions)).outcome ≠ .error (.tooDeep n) := by
  have hdepth : (v.deleteAll deletions).depth ≤ limit :=
    Nat.le_trans (v.depth_deleteAll_le deletions) (depth_le_of_parse h)
  refine ⟨hdepth, fun options hle => exists_serialize_ok (Nat.le_trans hdepth hle), ?_⟩
  intro path limits hle
  have hwithin := Nat.le_trans hdepth hle
  refine ⟨path.exists_getAll_ok hwithin, fun n => ⟨path.get_ne_tooDeep hwithin n, ?_, ?_⟩⟩
  · exact fun predicate => path.filter_ne_tooDeep hwithin predicate n
  · exact path.delete_ne_tooDeep hwithin n

/-- A null two levels down is read within two levels and deleted, and what is left is searched to
the bottom under the same limit. -/
theorem Value.answers_of_parse_null :
    Value.parse 2 (bytesOf "[[null]]") = .ok (.array [.array [.null]]) ∧
      deleteAll (.array [.array [.null]]) [(⟨"$[0][0]", [.index 0, .index 0]⟩, ⟨2, 0, 0⟩)]
        = .array [.array []] ∧
      depth (.array [.array []]) ≤ 2 ∧
      ∃ values, Path.getAll ⟨"$..*", [.descent, .wildcard]⟩ ⟨2, 0, 0⟩ (.array [.array []])
        = .ok values := by
  have hparse : Value.parse 2 (bytesOf "[[null]]") = .ok (.array [.array [.null]]) := rfl
  have hafter :=
    answers_of_parse hparse [(⟨"$[0][0]", [.index 0, .index 0]⟩, ⟨2, 0, 0⟩)]
  refine ⟨hparse, rfl, hafter.1, ?_⟩
  exact (hafter.2.2 ⟨"$..*", [.descent, .wildcard]⟩ ⟨2, 0, 0⟩ (Nat.le_refl 2)).1

/-- Under a smaller limit the search of the document gives up, though it finds what is left. -/
example :
    Path.getAll ⟨"$..*", [.descent, .wildcard]⟩ ⟨1, 0, 0⟩ (.array [.array [.null]])
        = .error (.tooDeep 1) ∧
      Path.getAll ⟨"$..*", [.descent, .wildcard]⟩ ⟨1, 0, 0⟩ (.array [.array []])
        = .ok [.array []] := ⟨rfl, rfl⟩

end JsonDoc
