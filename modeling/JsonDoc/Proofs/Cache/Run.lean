import JsonDoc.Cache
import JsonDoc.Proofs.Path.Reading

/-!
# `JsonDoc.Proofs.Cache.Run`: a cache over the calls made to it

`Call` are the calls that can change a cache, and `Reachable` are the caches that such calls lead
to from an empty one. A call to compile has three results (`compile_cases`): it finds the
instance kept for the text, it passes on why the text cannot be read, or it makes a new instance.

`Faithful` is the invariant behind all answers: what is kept for a text is the path that the text
compiles to. Each call keeps it (`Faithful.run`), so it holds of every reachable cache, and the
answers of a faithful cache are those of compiling without one (`Faithful.compile_eq`).
-/

set_option autoImplicit false

namespace JsonDoc.Cache

open Path.Grammar

/-- A call that can change a cache. -/
inductive Call where
  | compile (text : String)
  | resize (maxSize : Nat)
  | clear
  deriving DecidableEq, Repr

/-- The cache after a call. -/
def Call.run (cache : Cache) : Call → Cache
  | compile text => (Cache.compile text cache).2
  | resize maxSize => cache.resize maxSize
  | clear => cache.clear

/-- The cache after some calls, one after the other. -/
def after (cache : Cache) (calls : List Call) : Cache := calls.foldl Call.run cache

/-- The cache is one that some calls lead to, from an empty cache of some size. -/
def Reachable (cache : Cache) : Prop := ∃ maxSize calls, cache = (ofSize maxSize).after calls

/-- A call leads from a reachable cache to a reachable one: it comes last in the run that leads
there. -/
theorem Reachable.run {cache : Cache} (h : cache.Reachable) (call : Call) :
    (call.run cache).Reachable := by
  obtain ⟨maxSize, calls, rfl⟩ := h
  exact ⟨maxSize, calls ++ [call], by rw [after, after, List.foldl_append]; rfl⟩

/-- What is kept for a text is the path that the text compiles to. -/
def Faithful (cache : Cache) : Prop :=
  ∀ entry ∈ cache.entries, Path.compile entry.path.text = .ok entry.path

section
variable {cache : Cache} {text : String}

/-- A call to compile finds the instance kept, passes a fault on, or adds a new instance. -/
theorem compile_cases (cache : Cache) (text : String) :
    (∃ entry, cache.find? text = some entry ∧ compile text cache = (.ok entry, cache)) ∨
    (∃ fault, Path.compile text = .error fault ∧ compile text cache = (.error fault, cache)) ∨
    ∃ path, Path.compile text = .ok path ∧
      compile text cache = (.ok (cache.add path).1, (cache.add path).2) := by
  rw [compile]
  cases hfind : cache.find? text with
  | some entry => exact .inl ⟨entry, rfl, rfl⟩
  | none =>
    cases hpath : Path.compile text with
    | error fault => exact .inr (.inl ⟨fault, rfl, rfl⟩)
    | ok path => exact .inr (.inr ⟨path, rfl, rfl⟩)

/-- What is found for a text is an entry, and its path has that text. -/
theorem of_find? {entry : Instance} (h : cache.find? text = some entry) :
    entry ∈ cache.entries ∧ entry.path.text = text :=
  ⟨List.mem_of_find?_eq_some h, by simpa using List.find?_some h⟩

/-- What is kept after an addition was kept before it, or is what was added. -/
theorem mem_entries_add {path : Path} {entry : Instance}
    (h : entry ∈ (cache.add path).2.entries) : entry ∈ cache.entries ∨ entry.path = path := by
  simp only [add] at h
  split at h
  · -- A cache of size zero keeps nothing that is added.
    exact .inl h
  · obtain hkept | hnew := List.mem_append.1 h
    · exact .inl (List.mem_of_mem_drop hkept)
    · rw [List.mem_singleton.1 hnew]
      exact .inr rfl

/-- An empty cache is faithful whatever its size. -/
theorem Faithful.ofSize (maxSize : Nat) : (ofSize maxSize).Faithful :=
  fun _ mem => absurd mem List.not_mem_nil

/-- Adding a path that was just compiled keeps the invariant; the text of a compiled path is the one
it was compiled from. -/
theorem Faithful.add (h : cache.Faithful) {path : Path} (hpath : Path.compile text = .ok path) :
    (cache.add path).2.Faithful := by
  intro entry mem
  obtain hkept | rfl := mem_entries_add mem
  · exact h entry hkept
  · rw [(compile_eq_ok_iff.1 hpath).1, hpath]

/-- Every call keeps the invariant: only a path that was just compiled is added. -/
theorem Faithful.run (h : cache.Faithful) (call : Call) : (call.run cache).Faithful := by
  cases call with
  | resize maxSize => exact h
  | clear => exact fun _ mem => absurd mem List.not_mem_nil
  | compile text =>
    rw [Call.run]
    obtain ⟨entry, -, heq⟩ | ⟨fault, -, heq⟩ | ⟨path, hpath, heq⟩ := compile_cases cache text
    · rwa [heq]
    · rwa [heq]
    · rw [heq]
      exact h.add hpath

/-- A run of calls keeps the invariant, by induction on the calls. -/
theorem Faithful.after (h : cache.Faithful) (calls : List Call) :
    (cache.after calls).Faithful := by
  induction calls generalizing cache with
  | nil => exact h
  | cons call calls ih => exact ih (h.run call)

/-- Every cache that can come up is faithful. -/
theorem Reachable.faithful (h : cache.Reachable) : cache.Faithful := by
  obtain ⟨maxSize, calls, rfl⟩ := h
  exact (Faithful.ofSize maxSize).after calls

/-- A faithful cache answers what compiling without it does. -/
theorem Faithful.compile_eq (h : cache.Faithful) (text : String) :
    (compile text cache).1.map Instance.path = Path.compile text := by
  obtain ⟨entry, hfind, heq⟩ | ⟨fault, hpath, heq⟩ | ⟨path, hpath, heq⟩ :=
    compile_cases cache text
  · obtain ⟨mem, rfl⟩ := of_find? hfind
    rw [heq, h entry mem]
    rfl
  · rw [heq, hpath]
    rfl
  · rw [heq, hpath]
    rfl

/-- An answer that is what the text compiles to has the text itself as that of its path. -/
theorem map_text_eq {answer : Except Path.Fault Instance}
    (h : answer.map Instance.path = Path.compile text) :
    answer.map (fun shared => shared.path.text) = (Path.compile text).map fun _ => text := by
  cases answer with
  | error fault =>
    rw [← h]
    rfl
  | ok shared =>
    have hpath : Path.compile text = .ok shared.path := h.symm
    rw [hpath, ← (compile_eq_ok_iff.1 hpath).1]
    rfl

end

end JsonDoc.Cache
