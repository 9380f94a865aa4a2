import JsonDoc.Proofs.Edit.Undo
import JsonDoc.Proofs.Query.Direct
import JsonDoc.Proofs.Remove.Alike

/-!
# `JsonDoc.Proofs.Query.Batch`: what a batch rejects leaves no trace

A batch goes on after a failure, and the entries behind it see the document as the failure left it.
Where no path fans out, that is the document before: the assignment takes back what it made
(`Direct.set_value_of_error`). So the entries that were accepted find in a batch of their own what
they found among the others, and they come to the same (`Direct.setBatch_accepted`).

What is proved of batches without a cache holds of those with one, by `answers_setBatch`.
-/

set_option autoImplicit false

namespace JsonDoc

/-! ### One assignment -/

section
variable {path : Path} {limits : Limits} {root new : Value}

/-- An assignment that fails takes back what it made, if the path does not fan out. -/
theorem Path.set_value_of_error (hroot : root.WellFormed)
    (hpath : ∀ segment ∈ path.segments, segment.fansOut = false) {e : Error}
    (h : (path.set limits root new).outcome = .error e) :
    (path.set limits root new).value = root := by
  obtain ⟨e', -, eq⟩ | ⟨-, -, eq⟩ := path.set_cases limits root
  · rw [eq]
  · rw [eq] at h ⊢
    rw [Edited.finish_value]
    refine assign_restores hroot ?_ (.inr (.inl hpath))
    -- Whether nothing was found or the way was barred, nothing was assigned.
    obtain ⟨hzero, -⟩ | herror := Edited.finish_outcome_eq_error_iff.1 h
    · rw [Edited.any, hzero]
      rfl
    · rw [Edited.any, herror]

/-- An assignment that succeeds leaves a document whose keys differ at every level, if the keys of
the document and of the value do. -/
theorem Path.wellFormed_set_of_ok (hroot : root.WellFormed) (hnew : new.WellFormed)
    (h : (path.set limits root new).outcome = .ok ()) :
    (path.set limits root new).value.WellFormed := by
  -- A well-formed value is its own counterpart.
  have hself {v : Value} (hv : v.WellFormed) : Value.Counterparts Eq v v :=
    ⟨Value.alike_refl (fun _ => rfl) v, hv, hv⟩
  have hsame (x y : Number.Binary64) (hxy : x = y) : x.position? = y.position? := by rw [hxy]
  exact ((Path.set_alike hsame path limits (hself hroot) (hself hnew)).2 h).left

end

namespace Query

/-- The keys of every object differ in the document, if there is one. -/
def WellFormedRoot (root : Option Value) : Prop := ∀ v, root = some v → v.WellFormed

/-- The path that the text stands for, if it does, does not fan out. -/
def FansNowhere (text : String) : Prop :=
  ∀ path, Path.compile text = .ok path → ∀ segment ∈ path.segments, segment.fansOut = false

/-- The entries to which a batch had no objection. -/
def accepted (entries : List (String × Value)) (outcomes : List (String × Except Error Unit)) :
    List (String × Value) :=
  ((entries.zip outcomes).filter fun pair => pair.2.2.isOk).map Prod.fst

namespace Direct

section
variable {root : Option Value} {text : String} {new : Value}

/-- A call that fails leaves the document. The path must not fan out: a wildcard or filter keeps
what it has assigned in earlier children. -/
theorem set_value_of_error (hroot : WellFormedRoot root) (htext : FansNowhere text) {e : Error}
    (h : (set root text new).outcome = .error e) : (set root text new).value = root := by
  cases root with
  | none => rfl
  | some v =>
    rw [set, edit] at h ⊢
    cases hpath : Path.compile text with
    | error fault => rfl
    | ok path =>
      rw [hpath] at h
      exact congrArg some (Path.set_value_of_error (hroot v rfl) (htext path hpath) h)

/-- A call keeps the keys of the document different, whether it succeeds or fails. -/
theorem wellFormedRoot_set (hroot : WellFormedRoot root) (htext : FansNowhere text)
    (hnew : new.WellFormed) : WellFormedRoot (set root text new).value := by
  cases houtcome : (set root text new).outcome with
  | error e => rwa [set_value_of_error hroot htext houtcome]
  | ok u =>
    intro left hleft
    cases root with
    | none => cases hleft
    | some v =>
      rw [set, edit] at houtcome hleft
      cases hpath : Path.compile text with
      | error fault =>
        rw [hpath] at houtcome
        cases houtcome
      | ok path =>
        rw [hpath] at houtcome hleft
        cases hleft
        exact Path.wellFormed_set_of_ok (hroot v rfl) hnew houtcome

end

/-! ### A whole batch -/

/-- A batch gives one result for each entry. -/
theorem length_setBatch (root : Option Value) (entries : List (String × Value)) :
    (setBatch root entries).2.length = entries.length := by
  induction entries generalizing root with
  | nil => rfl
  | cons entry entries ih => exact congrArg Nat.succ (ih _)

/-- The outcome of an entry is that of its assignment in the document that those before it leave. -/
theorem getElem?_setBatch (root : Option Value) (before : List (String × Value)) (text : String)
    (new : Value) (after : List (String × Value)) :
    (setBatch root (before ++ (text, new) :: after)).2[before.length]?
      = some (text, (set (setBatch root before).1 text new).outcome) := by
  induction before generalizing root with
  | nil => rfl
  | cons entry before ih => exact ih _

/-- The accepted entries alone are all accepted, and they leave the same document. -/
theorem setBatch_accepted {root : Option Value} {entries : List (String × Value)}
    (hroot : WellFormedRoot root)
    (hentries : ∀ entry ∈ entries, FansNowhere entry.1 ∧ entry.2.WellFormed) :
    setBatch root (accepted entries (setBatch root entries).2)
      = ((setBatch root entries).1,
          (accepted entries (setBatch root entries).2).map fun entry => (entry.1, .ok ())) := by
  induction entries generalizing root with
  | nil => rfl
  | cons entry entries ih =>
    obtain ⟨text, new⟩ := entry
    obtain ⟨⟨htext, hnew⟩, hrest⟩ := List.forall_mem_cons.1 hentries
    have hbehind := ih (wellFormedRoot_set hroot htext hnew) hrest
    rw [setBatch, accepted, List.zip_cons_cons]
    cases houtcome : (set root text new).outcome with
    | error e =>
      -- The entries behind a rejected one start from the document that it was given.
      rw [set_value_of_error hroot htext houtcome] at hbehind ⊢
      rw [List.filter_cons_of_neg Bool.false_ne_true]
      exact hbehind
    | ok u =>
      rw [List.filter_cons_of_pos rfl, List.map_cons, setBatch, List.map_cons, houtcome]
      rw [accepted] at hbehind
      rw [hbehind]

end Direct

/-- A batch of assignments along paths that do not fan out, some of which may be malformed. Each
entry has one outcome, at its place: that of its assignment in the document that the entries before
it leave. The entries that were accepted, put into a batch of their own, are all accepted again, and
that batch leaves the same document. -/
theorem setBatch_of_accepted {root : Option Value} {entries : List (String × Value)}
    (hroot : WellFormedRoot root)
    (hentries : ∀ entry ∈ entries, FansNowhere entry.1 ∧ entry.2.WellFormed)
    {cache : Cache} (hcache : cache.Reachable) :
    ∃ left outcomes, ((setBatch root entries).run cache).1 = (left, outcomes) ∧
      outcomes.length = entries.length ∧
      (∀ before text new after, entries = before ++ (text, new) :: after →
        outcomes[before.length]? = some (text,
          ((set ((setBatch root before).run cache).1.1 text new).run cache).1.outcome)) ∧
      ∀ other : Cache, other.Reachable →
        ((setBatch root (accepted entries outcomes)).run other).1
          = (left, (accepted entries outcomes).map fun entry => (entry.1, .ok ())) := by
  -- The outcomes do not depend on the cache that the batch starts from.
  have hanswer {cache : Cache} (h : cache.Reachable) (entries : List (String × Value)) :
      ((setBatch root entries).run cache).1 = Direct.setBatch root entries := by
    obtain ⟨left, -, heq⟩ := answers_setBatch root entries cache h
    rw [heq]
  refine ⟨_, _, hanswer hcache entries, Direct.length_setBatch root entries, ?_, ?_⟩
  · rintro before text new after rfl
    obtain ⟨left, -, heq⟩ := answers_set (Direct.setBatch root before).1 text new cache hcache
    rw [hanswer hcache, heq]
    exact Direct.getElem?_setBatch root before text new after
  · intro other hother
    rw [hanswer hother]
    exact Direct.setBatch_accepted hroot hentries

/-- The second entry makes a member and items before an index that is out of bounds, and the third
is no path; what the last one finds is what the first one made. -/
theorem setBatch_of_accepted_undone :
    let root : Option Value := some (.object [("a", .array [])])
    let entries : List (String × Value) := [("$.a[1].b", .bool true), ("$.n[1][-1]", .null),
      ("$.a[", .null), ("$.a[-1].b", .bool false)]
    let cache := Cache.ofSize 2
    let answer := ((setBatch root entries).run cache).1
    (answer.2.map fun outcome => outcome.2.isOk) = [true, false, false, true] ∧
      ((setBatch root (accepted entries answer.2)).run cache).1
        = (answer.1, (accepted entries answer.2).map fun entry => (entry.1, .ok ())) := by
  intro root entries cache answer
  have hroot : WellFormedRoot root := by
    intro v hv
    obtain rfl : .object [("a", .array [])] = v := Option.some.inj hv
    simp [Members.keys]
  have htext (text : String) (h : ((Path.compile text).toOption.all fun path =>
      path.segments.all fun segment => !segment.fansOut) = true) : FansNowhere text := by
    intro path hpath
    rw [hpath] at h
    simpa [Except.toOption] using h
  have hentries : ∀ entry ∈ entries, FansNowhere entry.1 ∧ entry.2.WellFormed := by
    simp only [entries, List.forall_mem_cons]
    exact ⟨⟨htext _ (by decide +kernel), trivial⟩, ⟨htext _ (by decide +kernel), trivial⟩,
      ⟨htext _ (by decide +kernel), trivial⟩, ⟨htext _ (by decide +kernel), trivial⟩,
      fun entry mem => absurd mem List.not_mem_nil⟩
  have hcache : cache.Reachable := ⟨2, [], rfl⟩
  obtain ⟨left, outcomes, heq, -, -, halone⟩ := setBatch_of_accepted hroot hentries hcache
  refine ⟨by decide +kernel, ?_⟩
  rw [show answer = (left, outcomes) from heq]
  exact halone cache hcache

end Query

end JsonDoc
