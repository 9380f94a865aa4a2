import JsonDoc.Proofs.Cache.Run
import JsonDoc.Query.Batch

/-!
# `JsonDoc.Proofs.Query.Direct`: the path cache does not show in answers

`Direct` has the operations on documents and texts of paths once more, without a cache: the text
is compiled where it is needed, and the path is evaluated within the usual limits.

A cached operation answers so too, whatever was asked of the cache before: `Answers` says that a
computation gives the same answer in every reachable cache, and that the cache it leaves is
reachable again, so that the next operation can go on from there. `queries_eq_direct` puts the
operations together.
-/

set_option autoImplicit false

namespace JsonDoc.Query

/-! ### Operations without a cache -/

namespace Direct

/-- What a question about the document and the path comes to. -/
def ask {α : Type} (question : Path → Value → Except Error α) (root : Option Value)
    (text : String) : Except Error α :=
  match root with
  | none => .error .absentRoot
  | some root =>
    match Path.compile text with
    | .ok path => question path root
    | .error fault => .error (.malformedPath fault)

/-- The first value that the path leads to. -/
def get : Option Value → String → Except Error Value := ask fun path root => path.get {} root

/-- The values that the path leads to. -/
def getAll : Option Value → String → Except Error (List Value) :=
  ask fun path root => path.getAll {} root

/-- The values that the path leads to and for which the predicate holds. -/
def filter (root : Option Value) (text : String) (predicate : Option (Value → Bool)) :
    Except Error (List Value) :=
  match root, predicate with
  | none, _ => .error .absentRoot
  | some _, none => .error .absentPredicate
  | some root, some holds =>
    ask (fun path root => path.filter {} root (some holds)) (some root) text

/-- How many values the path leads to; none where that is an error. -/
def count (root : Option Value) (text : String) : Nat :=
  match getAll root text with
  | .ok values => values.length
  | .error _ => 0

/-- Whether the path leads to any value. -/
def exists? (root : Option Value) (text : String) : Bool := 0 < count root text

/-- An edit of the document at the path. -/
def edit (change : Path → Value → Edited Value Unit) (root : Option Value) (text : String) :
    Edited (Option Value) Unit :=
  match root with
  | none => ⟨none, .error .absentRoot⟩
  | some root =>
    match Path.compile text with
    | .ok path => ⟨some (change path root).value, (change path root).outcome⟩
    | .error fault => ⟨some root, .error (.malformedPath fault)⟩

/-- Assigns a value at every node that the path leads to. -/
def set (root : Option Value) (text : String) (new : Value) : Edited (Option Value) Unit :=
  edit (fun path root => path.set {} root new) root text

/-- Removes every node that the path leads to. -/
def delete : Option Value → String → Edited (Option Value) Unit :=
  edit fun path root => path.delete {} root

/-- The first value that each path leads to, beside the path. -/
def getBatch (root : Option Value) (texts : List String) : List (String × Except Error Value) :=
  texts.map fun text => (text, get root text)

/-- Assigns each value at its path; the document after all of them, and the outcomes. -/
def setBatch (root : Option Value) :
    List (String × Value) → Option Value × List (String × Except Error Unit)
  | [] => (root, [])
  | (text, new) :: rest =>
    let edited := set root text new
    let (root, outcomes) := setBatch edited.value rest
    (root, (text, edited.outcome) :: outcomes)

end Direct

/-! ### Answers that do not depend on the cache -/

/-- The computation gives the answer in every reachable cache, and leaves a reachable one. -/
def Answers {α : Type} (asked : StateM Cache α) (answer : α) : Prop :=
  ∀ cache : Cache, cache.Reachable →
    ∃ left : Cache, left.Reachable ∧ asked.run cache = (answer, left)

section
variable {α β : Type}

/-- A step that asks nothing answers what it is given. -/
theorem answers_pure (a : α) : Answers (pure a) a := fun cache h => ⟨cache, h, rfl⟩

/-- One step after the other. The second one may rely on a reachable cache, since the first one
leaves one. -/
theorem Answers.bind {asked : StateM Cache α} {a : α} {next : α → StateM Cache β} {b : β}
    (h : Answers asked a) (hnext : Answers (next a) b) : Answers (asked >>= next) b := by
  intro cache hcache
  -- The second computation starts in the cache that the first one leaves.
  obtain ⟨between, hbetween, hasked⟩ := h cache hcache
  obtain ⟨left, hleft, hlast⟩ := hnext between hbetween
  refine ⟨left, hleft, ?_⟩
  rw [StateT.run_bind, hasked]
  exact hlast

/-- What is made of an answer is made of the right answer. -/
theorem Answers.map {asked : StateM Cache α} {a : α} (h : Answers asked a) (f : α → β) :
    Answers (f <$> asked) (f a) := by
  intro cache hcache
  obtain ⟨left, hleft, hasked⟩ := h cache hcache
  refine ⟨left, hleft, ?_⟩
  rw [StateT.run_map, hasked]
  rfl

/-- A computation that may fail goes on from its result, or ends with its failure. -/
theorem Answers.bind_query {asked : Query α} {answer : Except Error α} {next : α → Query β}
    {f : α → Except Error β} (h : Answers asked.run answer)
    (hnext : ∀ a, Answers (next a).run (f a)) : Answers (asked >>= next).run (answer >>= f) := by
  rw [ExceptT.run_bind]
  refine h.bind ?_
  cases answer with
  | ok a => exact hnext a
  | error e => exact answers_pure _

/-- A default in place of a failure. -/
theorem Answers.orElse {query : Query α} {answer : Except Error α} (h : Answers query.run answer)
    (default : α) :
    Answers (orElse query default) (answer.toOption.getD default) := by
  refine h.bind ?_
  cases answer with
  | ok a => exact answers_pure a
  | error e => exact answers_pure default

end

/-! ### Compiling -/

/-- The cache is asked once, and what it gives is passed on: the path without its number. -/
theorem run_compile (text : String) (cache : Cache) :
    (compile text).run.run cache
      = (((Cache.compile text cache).1.map Instance.path).mapError .malformedPath,
          (Cache.compile text cache).2) := by
  have hlift : (liftM (Cache.compile text) : Query (Except Path.Fault Instance)).run.run cache
      = (.ok (Cache.compile text cache).1, (Cache.compile text cache).2) := rfl
  rw [compile, ExceptT.run_bind, StateT.run_bind, hlift]
  cases (Cache.compile text cache).1 with
  | ok shared => rfl
  | error fault => rfl

/-- Compiling through a faithful cache answers what compiling without one does. -/
theorem answers_compile (text : String) :
    Answers (compile text).run ((Path.compile text).mapError .malformedPath) := by
  intro cache hcache
  refine ⟨_, hcache.run (.compile text), ?_⟩
  rw [run_compile, hcache.faithful.compile_eq]
  rfl

/-! ### Questions -/

section
variable {α : Type} (root : Option Value) (text : String)

/-- The document has to be there, then the text has to be a path, then the question is asked. -/
theorem answers_ask (question : Path → Value → Except Error α) :
    Answers (do
      let root ← present root
      let path ← compile text
      MonadExcept.ofExcept (question path root) : Query α).run (Direct.ask question root text) := by
  cases root with
  | none => exact answers_pure _
  | some root =>
    have hquestion (path : Path) :
        Answers (MonadExcept.ofExcept (question path root) : Query α).run (question path root) := by
      cases question path root with
      | ok a => exact answers_pure _
      | error e => exact answers_pure _
    have h := (answers_compile text).bind_query hquestion
    -- The question is asked only where the text is a path.
    rw [Direct.ask]
    cases hpath : Path.compile text with
    | ok path =>
      rw [hpath] at h
      exact h
    | error fault =>
      rw [hpath] at h
      exact h

/-- The first value is asked for through a cache as it is asked for without one. -/
theorem answers_get : Answers (get root text).run (Direct.get root text) :=
  answers_ask root text fun path root => path.get {} root

/-- All values are asked for through a cache as without one, with the same failure if the walk gives
up. -/
theorem answers_getAll : Answers (getAll root text).run (Direct.getAll root text) :=
  answers_ask root text fun path root => path.getAll {} root

/-- An absent predicate is noticed after an absent document and before the text is compiled. -/
theorem answers_filter (predicate : Option (Value → Bool)) :
    Answers (filter root text predicate).run (Direct.filter root text predicate) := by
  cases root with
  | none => exact answers_pure _
  | some root =>
    cases predicate with
    | none => exact answers_pure _
    | some holds =>
      exact answers_ask (some root) text fun path root => path.filter {} root (some holds)

/-- A question that fails counts as no value on both sides, whether the document is absent, the text
is no path or the walk gives up. -/
theorem answers_count : Answers (count root text) (Direct.count root text) := by
  have h := ((answers_getAll root text).orElse []).map List.length
  rw [Direct.count]
  cases hvalues : Direct.getAll root text with
  | ok values =>
    rw [hvalues] at h
    exact h
  | error e =>
    rw [hvalues] at h
    exact h

/-- There is a value exactly if the count is not zero, on both sides. -/
theorem answers_exists : Answers (exists? root text) (Direct.exists? root text) :=
  (answers_count root text).map _

/-! ### Edits -/

/-- Calls that change the document: they ask for the path first and then change the document as the
evaluator does. -/
theorem answers_edit (change : Path → Value → Edited Value Unit) :
    Answers (edit change root text) (Direct.edit change root text) := by
  cases root with
  | none => exact answers_pure _
  | some root =>
    refine (answers_compile text).bind ?_
    rw [Direct.edit]
    cases Path.compile text with
    | ok path => exact answers_pure _
    | error fault => exact answers_pure _

/-- An assignment leaves the same document with a cache as without, also where it fails. -/
theorem answers_set (new : Value) : Answers (set root text new) (Direct.set root text new) :=
  answers_edit root text fun path root => path.set {} root new

/-- A removal leaves the same document with a cache as without, also where it fails. -/
theorem answers_delete : Answers (delete root text) (Direct.delete root text) :=
  answers_edit root text fun path root => path.delete {} root

end

/-! ### Batches -/

/-- A batch of reads, each with the cache that the one before it leaves. -/
theorem answers_getBatch (root : Option Value) (texts : List String) :
    Answers (getBatch root texts) (Direct.getBatch root texts) := by
  induction texts with
  | nil => exact answers_pure _
  | cons text texts ih =>
    rw [getBatch, List.mapM_cons]
    have hfirst : Answers (do pure (text, ← (get root text).run)) (text, Direct.get root text) :=
      (answers_get root text).bind (answers_pure _)
    exact hfirst.bind (ih.bind (answers_pure _))

/-- The document that an assignment leaves is the one that the next assignment starts from. -/
theorem answers_setBatch (root : Option Value) (entries : List (String × Value)) :
    Answers (setBatch root entries) (Direct.setBatch root entries) := by
  induction entries generalizing root with
  | nil => exact answers_pure _
  | cons entry entries ih =>
    obtain ⟨text, new⟩ := entry
    exact (answers_set root text new).bind ((ih _).bind (answers_pure _))

/-- Whatever calls a cache has answered before, it compiles a text to what the text compiles to
without it. Every operation that goes through it has the answer, and leaves the document, that it
has and leaves without a cache. -/
theorem queries_eq_direct :
    (∀ (maxSize : Nat) (calls : List Cache.Call) (text : String),
      let answer := (Cache.compile text ((Cache.ofSize maxSize).after calls)).1
      answer.map Instance.path = Path.compile text ∧
        answer.map (fun shared => shared.path.text) = (Path.compile text).map fun _ => text) ∧
    ∀ (root : Option Value) (text : String),
      Answers (get root text).run (Direct.get root text) ∧
      Answers (getAll root text).run (Direct.getAll root text) ∧
      Answers (exists? root text) (Direct.exists? root text) ∧
      Answers (count root text) (Direct.count root text) ∧
      (∀ predicate, Answers (filter root text predicate).run
        (Direct.filter root text predicate)) ∧
      (∀ new, Answers (set root text new) (Direct.set root text new)) ∧
      Answers (delete root text) (Direct.delete root text) ∧
      (∀ texts, Answers (getBatch root texts) (Direct.getBatch root texts)) ∧
      ∀ entries, Answers (setBatch root entries) (Direct.setBatch root entries) := by
  refine ⟨fun maxSize calls text => ?_, fun root text => ?_⟩
  · have hcompile := ((Cache.Faithful.ofSize maxSize).after calls).compile_eq text
    exact ⟨hcompile, Cache.map_text_eq hcompile⟩
  · exact ⟨answers_get root text, answers_getAll root text, answers_exists root text,
      answers_count root text, answers_filter root text, answers_set root text,
      answers_delete root text, answers_getBatch root, answers_setBatch root⟩

end JsonDoc.Query
