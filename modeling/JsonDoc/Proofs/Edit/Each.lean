import JsonDoc.Edit.Basic
import JsonDoc.Proofs.Edit.Child
import Mathlib.Algebra.Ring.Nat

/-!
# `JsonDoc.Proofs.Edit.Each`: editing values one after the other

`editEach` edits the values of a list up to the first failure. `EachRun` are the two things that
it can come to: all values are edited and their nodes counted together, or those up to and with
the first that fails, and what stands behind it is left alone.

How far a run comes depends on the outcomes of the edits and not on the values that they leave:
`exists_editEach_getElem?` tells it at once for a family of edits with the same outcomes.
-/

set_option autoImplicit false

namespace JsonDoc

/-- The number of nodes assigned or removed; none for an edit that failed. -/
def Edited.count {α : Type} (edited : Edited α Nat) : Nat :=
  match edited.outcome with
  | .ok n => n
  | .error _ => 0

/-- An edit has reached some node exactly if its count is not zero. -/
theorem Edited.any_iff {α : Type} {edited : Edited α Nat} : edited.any ↔ 0 < edited.count := by
  rw [any, count]
  cases edited.outcome <;> simp

/-- The count of an edit that succeeds is the number it gives. -/
theorem Edited.count_of_ok {α : Type} {edited : Edited α Nat} {n : Nat}
    (h : edited.outcome = .ok n) : edited.count = n := by
  rw [count, h]

/-- An edit that succeeds has reached a node if the number it gives is not zero. -/
theorem Edited.any_of_ok {α : Type} {edited : Edited α Nat} {n : Nat}
    (h : edited.outcome = .ok n) : edited.any = decide (0 < n) := by
  rw [any, h]

/-- An edit that succeeds gives its count. -/
theorem Edited.ok_count {α : Type} {edited : Edited α Nat} {n : Nat}
    (h : edited.outcome = .ok n) : edited.outcome = .ok edited.count := by
  rw [count_of_ok h, h]

section
variable {edit : Value → Edited Value Nat}

/-- An edit that succeeds at the first value goes on with the rest. -/
theorem editEach_cons_ok {v : Value} {n : Nat} (h : (edit v).outcome = .ok n)
    (rest : List Value) :
    editEach edit [] 0 (v :: rest) = ⟨(edit v).value :: (editEach edit [] 0 rest).value,
      countMore n (editEach edit [] 0 rest).outcome⟩ := by
  rw [editEach]
  generalize edit v = edited at h ⊢
  obtain ⟨left, outcome⟩ := edited
  cases h
  refine (editEach_eq edit [left] (0 + n) rest).trans ?_
  rw [Nat.zero_add]
  rfl

/-- An edit that fails at the first value ends the run and leaves the rest as it is. -/
theorem editEach_cons_error {v : Value} {e : Error} (h : (edit v).outcome = .error e)
    (rest : List Value) : editEach edit [] 0 (v :: rest) = ⟨(edit v).value :: rest, .error e⟩ := by
  rw [editEach]
  generalize edit v = edited at h ⊢
  obtain ⟨left, outcome⟩ := edited
  cases h
  rfl

/-- What a run of an edit over a list comes to. -/
inductive EachRun (edit : Value → Edited Value Nat) (vs : List Value) : Prop where
  /-- Every value is edited. -/
  | all (each : ∀ v ∈ vs, (edit v).outcome = .ok (edit v).count)
      (outcome : (editEach edit [] 0 vs).outcome = .ok (vs.map fun v => (edit v).count).sum)
      (value : (editEach edit [] 0 vs).value = vs.map fun v => (edit v).value)
  /-- The edit fails at a value, and those behind it are left alone. -/
  | failed (before : List Value) (v : Value) (after : List Value) (e : Error)
      (split : vs = before ++ v :: after)
      (each : ∀ u ∈ before, (edit u).outcome = .ok (edit u).count)
      (here : (edit v).outcome = .error e) (outcome : (editEach edit [] 0 vs).outcome = .error e)
      (value : (editEach edit [] 0 vs).value
        = (before.map fun u => (edit u).value) ++ (edit v).value :: after)

/-- The run over any list ends in one of the two ways. Induction on the list. -/
theorem eachRun (edit : Value → Edited Value Nat) (vs : List Value) : EachRun edit vs := by
  induction vs with
  | nil => exact .all (by simp) rfl rfl
  | cons v rest ih =>
    cases h : (edit v).outcome with
    | error e =>
      have hrun := editEach_cons_error h rest
      exact .failed [] v rest e rfl (by simp) h (by rw [hrun]) (by rw [hrun]; rfl)
    | ok n =>
      have hrun := editEach_cons_ok h rest
      have hcount := Edited.count_of_ok h
      cases ih with
      | all each outcome value =>
        refine .all ?_ ?_ ?_
        · exact List.forall_mem_cons.2 ⟨Edited.ok_count h, each⟩
        · rw [hrun, outcome, List.map_cons, List.sum_cons, hcount]
          rfl
        · rw [hrun, value, List.map_cons]
      | failed before u after e split each here outcome value =>
        refine .failed (v :: before) u after e (by rw [split]; rfl) ?_ here ?_ ?_
        · exact List.forall_mem_cons.2 ⟨Edited.ok_count h, each⟩
        · rw [hrun, outcome]
          rfl
        · rw [hrun, value]
          rfl

/-- What comes of a run depends only on what comes of each edit. -/
theorem editEach_outcome_congr {edit' : Value → Edited Value Nat}
    (same : ∀ v, (edit v).outcome = (edit' v).outcome) (vs : List Value) :
    (editEach edit [] 0 vs).outcome = (editEach edit' [] 0 vs).outcome := by
  induction vs with
  | nil => rfl
  | cons v rest ih =>
    cases h : (edit v).outcome with
    | error e => rw [editEach_cons_error h, editEach_cons_error ((same v).symm.trans h)]
    | ok n => rw [editEach_cons_ok h, editEach_cons_ok ((same v).symm.trans h), ih]

/-- As many values are left as there were, whether the run fails or not. -/
theorem length_editEach (edit : Value → Edited Value Nat) (vs : List Value) :
    (editEach edit [] 0 vs).value.length = vs.length := by
  cases eachRun edit vs with
  | all each outcome value => rw [value, List.length_map]
  | failed before v after e split each here outcome value =>
    rw [value, split]
    simp

/-- A run that reached a node did so at some value. -/
theorem exists_any_of_editEach {vs : List Value} (h : (editEach edit [] 0 vs).any) :
    ∃ v ∈ vs, (edit v).any := by
  cases eachRun edit vs with
  | all each outcome value =>
    rw [Edited.any_iff, Edited.count_of_ok outcome, List.sum_pos_iff_exists_pos_nat] at h
    obtain ⟨n, hn, hpos⟩ := h
    obtain ⟨v, mem, rfl⟩ := List.mem_map.1 hn
    exact ⟨v, mem, Edited.any_iff.2 hpos⟩
  | failed before v after e split each here outcome value =>
    rw [Edited.any, outcome] at h
    cases h

/-- A run that came to its end and reached no node did so at every value. -/
theorem outcome_eq_zero_of_editEach {vs : List Value}
    (h : (editEach edit [] 0 vs).outcome = .ok 0) : ∀ v ∈ vs, (edit v).outcome = .ok 0 := by
  intro v mem
  cases eachRun edit vs with
  | all each outcome value =>
    rw [outcome, Except.ok.injEq, List.sum_eq_zero_iff_forall_eq_nat] at h
    rw [each v mem, h _ (List.mem_map_of_mem mem)]
  | failed before v after e split each here outcome value =>
    rw [outcome] at h
    cases h

/-- The edit of the children comes to its end if every child is edited. -/
theorem editChildren_of_ok {v : Value}
    (h : ∀ child ∈ v.children, (edit child).outcome = .ok (edit child).count) :
    editChildren edit v = ⟨v.withChildren (v.children.map fun child => (edit child).value),
      .ok (v.children.map fun child => (edit child).count).sum⟩ := by
  rw [editChildren]
  cases eachRun edit v.children with
  | all each outcome value => rw [outcome, value]
  | failed before child after e split each here outcome value =>
    rw [h child (by simp [split])] at here
    cases here

/-- A run over the children that succeeds has succeeded at each child. -/
theorem ok_of_editChildren {v : Value} {n : Nat} (h : (editChildren edit v).outcome = .ok n) :
    ∀ child ∈ v.children, (edit child).outcome = .ok (edit child).count := by
  rw [editChildren] at h
  cases eachRun edit v.children with
  | all each outcome value => exact each
  | failed before child after e split each here outcome value =>
    rw [outcome] at h
    cases h

/-- A failure of the run is one of an edit. -/
theorem editChildren_ne_error {e : Error}
    (h : ∀ child, (edit child).outcome ≠ .error e) (v : Value) :
    (editChildren edit v).outcome ≠ .error e := by
  rw [editChildren]
  cases eachRun edit v.children with
  | all each outcome value =>
    rw [outcome]
    nofun
  | failed before child after e split each here outcome value =>
    rw [outcome, ← here]
    exact h child

/-- A run that has reached a node has not failed, so every value is the edited one. -/
theorem editEach_value_of_any {vs : List Value} (h : (editEach edit [] 0 vs).any) :
    (editEach edit [] 0 vs).value = vs.map fun v => (edit v).value := by
  cases eachRun edit vs with
  | all each outcome value => exact value
  | failed before v after e split each here outcome value =>
    rw [Edited.any, outcome] at h
    cases h

/-- Values that are edited to the same are edited together to the same. -/
theorem editEach_map {f : Value → Value} {vs : List Value}
    (hok : ∀ v ∈ vs, (edit v).outcome = .ok (edit v).count) (h : ∀ v ∈ vs, edit (f v) = edit v) :
    editEach edit [] 0 (vs.map f) = editEach edit [] 0 vs := by
  induction vs with
  | nil => rfl
  | cons v rest ih =>
    obtain ⟨hv, hrest⟩ := List.forall_mem_cons.1 hok
    obtain ⟨same, hsame⟩ := List.forall_mem_cons.1 h
    rw [List.map_cons, editEach_cons_ok (same ▸ hv), editEach_cons_ok hv, same, ih hrest hsame]

end

/-- Edits that assign different values and have the same outcomes come equally far. -/
theorem exists_editEach_getElem? {edits : Value → Value → Edited Value Nat}
    (same : ∀ new new' v, (edits new v).outcome = (edits new' v).outcome) (vs : List Value) :
    ∃ reached, ∀ new (place : Nat) (v : Value), vs[place]? = some v →
      (editEach (edits new) [] 0 vs).value[place]?
        = some (if place < reached then (edits new v).value else v) := by
  induction vs with
  | nil => exact ⟨0, nofun⟩
  | cons u rest ih =>
    cases h : (edits .null u).outcome with
    | error e =>
      -- The value at which the run fails is the last one that is touched.
      refine ⟨1, ?_⟩
      intro new place v hv
      rw [editEach_cons_error ((same new .null u).trans h)]
      cases place with
      | zero =>
        cases hv
        rfl
      | succ place => exact hv
    | ok n =>
      obtain ⟨reached, hreached⟩ := ih
      refine ⟨reached + 1, ?_⟩
      intro new place v hv
      rw [editEach_cons_ok ((same new .null u).trans h)]
      cases place with
      | zero =>
        cases hv
        rfl
      | succ place =>
        rw [List.getElem?_cons_succ, hreached new place v hv]
        simp only [Nat.add_lt_add_iff_right]

/-! ### The whole edit -/

/-- The end of a call does not change the document any more. -/
theorem Edited.finish_value (edited : Edited Value Nat) (path : Path) :
    (edited.finish path).value = edited.value := by
  rw [finish]
  split <;> rfl

/-- A call succeeds exactly if it has reached some node. -/
theorem Edited.finish_outcome_eq_ok_iff {edited : Edited Value Nat} {path : Path} :
    (edited.finish path).outcome = .ok () ↔ edited.any := by
  rw [finish, any]
  split
  · next h => simp [h]
  · next n hzero h =>
    rw [h]
    simp only [decide_eq_true_eq, true_iff]
    exact Nat.pos_of_ne_zero hzero
  · next h => simp [h]

/-- The whole edit fails where nothing was reached, or with the failure of a step. -/
theorem Edited.finish_outcome_eq_error_iff {edited : Edited Value Nat} {path : Path} {e : Error} :
    (edited.finish path).outcome = .error e ↔
      edited.outcome = .ok 0 ∧ e = .notFound path.text ∨ edited.outcome = .error e := by
  rw [finish]
  split
  · next h => simp [h, eq_comm]
  · next n hzero h => simpa [h] using fun hn => absurd hn hzero
  · next h => simp [h]

/-! ### The values that satisfy a condition -/

/-- A value that is chosen is edited. -/
theorem editIf_of_accepted {choose : Value → Bool} {v : Value} (h : choose v = true)
    (edit : Value → Edited Value Nat) : editIf choose edit v = edit v := if_pos h

/-- A value that is not chosen is left as it is, and no node was reached in it. -/
theorem editIf_of_passed_over {choose : Value → Bool} {v : Value} (h : choose v = false)
    (edit : Value → Edited Value Nat) : editIf choose edit v = ⟨v, .ok 0⟩ := by
  rw [editIf, h]
  rfl

/-- Edits with equal outcomes have equal outcomes under a choice. -/
theorem editIf_outcome_congr {edit edit' : Value → Edited Value Nat}
    (same : ∀ v, (edit v).outcome = (edit' v).outcome) (choose : Value → Bool) (v : Value) :
    (editIf choose edit v).outcome = (editIf choose edit' v).outcome := by
  rw [editIf, editIf]
  split
  · exact same v
  · rfl

/-- Passing values over adds no failures. -/
theorem editIf_ne_error {edit : Value → Edited Value Nat} {e : Error}
    (h : ∀ v, (edit v).outcome ≠ .error e) (choose : Value → Bool) (v : Value) :
    (editIf choose edit v).outcome ≠ .error e := by
  rw [editIf]
  split
  · exact h v
  · nofun

/-- Nodes are reached only in the values that satisfy the condition. -/
theorem accepted_of_editIf_any {choose : Value → Bool} {edit : Value → Edited Value Nat} {v : Value}
    (h : (editIf choose edit v).any) : choose v = true ∧ (edit v).any := by
  rw [editIf] at h
  split at h
  · next hchoose => exact ⟨hchoose, h⟩
  · cases h

end JsonDoc
