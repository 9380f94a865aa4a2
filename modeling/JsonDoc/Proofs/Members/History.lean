import JsonDoc.Object
import JsonDoc.Proofs.Edit.Child
import Mathlib.Data.List.Dedup

/-!
# `JsonDoc.Proofs.Members.History`: objects over the calls made to them

`Object.Call` are the calls that change an object. A `History` tells what they come to without a
list of members: the value at each key, for itself, and the keys in the order in which they were
inserted, each time one was put in while it was absent. `Call.tell` goes on with a history.

An object follows its history (`Follows`): look-up gives the values, and the keys are those that
were inserted, each at the place of its last insertion, without those that are absent now. Putting a
value in keeps this (`Follows.put`), and so does every call (`Follows.run`); the object made of
pairs is what one call leaves of the empty one. Whatever an object answers can be told from its keys
and the values at them, so that all answers agree (`Object.agrees_with_history`).
-/

set_option autoImplicit false

namespace JsonDoc

namespace Members

variable {α : Type} {members : Members α}

/-- Nothing is at a key that is absent. -/
theorem get?_eq_none_iff {key : String} : get? members key = none ↔ key ∉ keys members := by
  rw [← has_iff_mem_keys, has, Option.not_isSome_iff_eq_none]

/-- Something is at a key exactly if it is among the keys. -/
theorem isSome_get?_iff {key : String} : (get? members key).isSome ↔ key ∈ keys members :=
  has_iff_mem_keys

/-- Look-up after a key is erased. The keys have to differ: only the first occurrence is erased. -/
theorem get?_erase (nodup : (keys members).Nodup) (key other : String) :
    get? (erase members key) other = if other = key then none else get? members other := by
  induction members with
  | nil => exact (ite_self none).symm
  | cons m rest ih =>
    obtain ⟨absent, nodup⟩ := List.nodup_cons.1 nodup
    by_cases hm : m.1 = key
    · rw [erase, List.eraseP_cons_of_pos (by simpa using hm), get?_cons]
      split
      · next hother => rw [hother, get?_eq_none_iff, ← hm]; exact absent
      · next hother => rw [if_neg fun heq => hother (heq.symm.trans hm)]
    · rw [erase, List.eraseP_cons_of_neg (by simpa using hm), ← erase, get?_cons, get?_cons,
        ih nodup]
      split
      · next hother => rw [if_neg fun heq => hm (hother.trans heq)]
      · rfl

/-- Look-up after a change of all values: what the change makes of the value at the key. -/
theorem get?_mapMembers (f : String → α → α) (key : String) :
    get? (mapMembers members f) key = (get? members key).map (f key) := by
  induction members with
  | nil => rfl
  | cons m rest ih =>
    rw [mapMembers, List.map_cons, get?_cons, get?_cons, ← mapMembers, ih]
    split
    · next hkey => rw [hkey]; rfl
    · rfl

/-- A change of all values leaves the keys. -/
theorem keys_mapMembers (f : String → α → α) : keys (mapMembers members f) = keys members := by
  rw [keys, mapMembers, List.map_map]
  rfl

/-- The members are the keys, each with the value at it. -/
theorem eq_filterMap_keys (nodup : (keys members).Nodup) :
    members = (keys members).filterMap fun key => (get? members key).map (key, ·) := by
  have hself : ∀ m ∈ members, (get? members m.1).map (m.1, ·) = some m := by
    intro m mem
    rw [get?_of_mem nodup mem]
    rfl
  rw [keys, List.filterMap_map]
  exact (List.filterMap_some.symm.trans (List.filterMap_congr fun m mem => (hself m mem).symm))

/-- The values are those at the keys. -/
theorem values_eq_filterMap_keys (nodup : (keys members).Nodup) :
    values members = (keys members).filterMap (get? members) := by
  conv_lhs => rw [eq_filterMap_keys nodup, values, List.map_filterMap]
  refine List.filterMap_congr fun key _ => ?_
  cases get? members key <;> rfl

end Members

namespace Object

open Members

/-- A call that can change an object. -/
inductive Call where
  | set (key : String) (value : Value)
  /-- The value at a key, if there is one, is changed in place. -/
  | change (key : String) (f : Value → Value)
  | delete (key : String)
  | extend (pairs : List (String × Value))
  /-- Every value is changed in place. -/
  | changeValues (f : Value → Value)
  /-- Every value is changed in place, with its key at hand. -/
  | changeMembers (f : String → Value → Value)
  | clear

/-- The object after a call. -/
def Call.run (members : Members Value) : Call → Members Value
  | set key value => (Object.set members key value).2
  | change key f => Object.change members key f
  | delete key => (Object.delete members key).2
  | extend pairs => putAll members pairs
  | changeValues f => mapMembers members fun _ => f
  | changeMembers f => mapMembers members f
  | clear => []

/-- The object after some calls, one after the other. -/
def after (members : Members Value) (calls : List Call) : Members Value :=
  calls.foldl Call.run members

/-- What calls come to, key by key. -/
structure History where
  /-- The value at each key. -/
  value : String → Option Value
  /-- The keys that were put in while they were absent, in the order of time. -/
  inserted : List String

namespace History

/-- Nothing was put in yet. -/
def empty : History := ⟨fun _ => none, []⟩

/-- The key is present. -/
def has (history : History) (key : String) : Bool := (history.value key).isSome

/-- A value is put in, which inserts its key if that is absent. -/
def put (history : History) (key : String) (value : Value) : History where
  value := Function.update history.value key (some value)
  inserted := if history.has key then history.inserted else history.inserted ++ [key]

/-- The keys that are present, each at the place of its last insertion: `List.dedup` keeps the last
of several occurrences. -/
def keys (history : History) : List String := history.inserted.dedup.filter history.has

end History

/-- What a call comes to. -/
def Call.tell (history : History) : Call → History
  | set key value => history.put key value
  | change key f =>
    { history with value := Function.update history.value key ((history.value key).map f) }
  | delete key => { history with value := Function.update history.value key none }
  | extend pairs => pairs.foldl (fun history pair => history.put pair.1 pair.2) history
  | changeValues f => { history with value := fun key => (history.value key).map f }
  | changeMembers f => { history with value := fun key => (history.value key).map (f key) }
  | clear => { history with value := fun _ => none }

/-- What calls come to, after the object was made of pairs. -/
def historyOf (pairs : List (String × Value)) (calls : List Call) : History :=
  (Call.extend pairs :: calls).foldl Call.tell .empty

/-- The object is what the calls have come to. -/
structure Follows (members : Members Value) (history : History) : Prop where
  value : ∀ key, get? members key = history.value key
  keys : Members.keys members = history.keys

section
variable {members : Members Value} {history : History}

/-- The empty object follows the empty history. -/
theorem Follows.empty : Follows [] .empty := ⟨fun _ => rfl, rfl⟩

/-- The keys of an object that follows a history differ, since a history lists each key once. -/
theorem Follows.nodup (h : Follows members history) : (Members.keys members).Nodup := by
  rw [h.keys, History.keys]
  exact (List.nodup_dedup _).filter _

/-- Both sides agree on which keys are present. -/
theorem Follows.has_iff (h : Follows members history) (key : String) :
    history.has key = true ↔ key ∈ Members.keys members := by
  rw [History.has, ← h.value, isSome_get?_iff]

/-- The last of the occurrences of a key is the one at the end. -/
theorem dedup_append_singleton {α : Type} [DecidableEq α] (as : List α) (a : α) :
    (as ++ [a]).dedup = as.dedup.filter (· ≠ a) ++ [a] := by
  induction as with
  | nil => rfl
  | cons b as ih =>
    by_cases hb : b ∈ as
    · rw [List.cons_append, List.dedup_cons_of_mem (List.mem_append_left _ hb),
        List.dedup_cons_of_mem hb, ih]
    · rw [List.cons_append, List.dedup_cons_of_notMem hb]
      by_cases hba : b = a
      · rw [List.dedup_cons_of_mem (by simp [hba]), ih,
          List.filter_cons_of_neg (by simpa using hba)]
      · rw [List.dedup_cons_of_notMem (by simp [hb, hba]), ih,
          List.filter_cons_of_pos (by simpa using hba), List.cons_append]

/-- Presence after a value is put in. -/
theorem History.has_put (history : History) (key : String) (value : Value) (other : String) :
    (history.put key value).has other = if other = key then true else history.has other := by
  rw [has, put]
  dsimp only
  rw [Function.update_apply]
  split <;> rfl

/-- A change of values that leaves the same keys present leaves the keys as they are. -/
theorem History.keys_congr {value : String → Option Value}
    (h : ∀ key, (value key).isSome = (history.value key).isSome) :
    History.keys ⟨value, history.inserted⟩ = history.keys :=
  List.filter_congr fun key _ => h key

/-- Putting a value in inserts its key behind the others, unless it is present. -/
theorem History.keys_put (history : History) (key : String) (value : Value) :
    (history.put key value).keys
      = if history.has key then history.keys else history.keys ++ [key] := by
  by_cases present : history.has key = true
  · have hinserted : (history.put key value).inserted = history.inserted := if_pos present
    rw [keys, hinserted, if_pos present]
    refine List.filter_congr fun other _ => ?_
    rw [has_put]
    split
    · next hother => rw [hother, present]
    · rfl
  · have hinserted : (history.put key value).inserted = history.inserted ++ [key] := if_neg present
    have hlast : [key].filter (history.put key value).has = [key] :=
      List.filter_cons_of_pos (by rw [has_put, if_pos rfl])
    rw [keys, hinserted, dedup_append_singleton, List.filter_append, List.filter_filter, hlast,
      if_neg present]
    congr 1
    refine List.filter_congr fun other _ => ?_
    -- The key that is new was not present before.
    rw [has_put]
    by_cases hother : other = key
    · simp [hother, present]
    · simp [hother]

/-- Putting a value in keeps the object in step: both sides add the key at the end, or leave the
keys as they are. -/
theorem Follows.put (h : Follows members history) (key : String) (value : Value) :
    Follows (Members.put members key value) (history.put key value) := by
  refine ⟨fun other => ?_, ?_⟩
  · rw [get?_put, h.value, History.put]
    exact (Function.update_apply _ _ _ _).symm
  · rw [Members.keys_put, History.keys_put, ← h.keys]
    simp only [h.has_iff]

/-- Putting pairs in one after the other keeps the object in step. -/
theorem Follows.putAll (h : Follows members history) (pairs : List (String × Value)) :
    Follows (Members.putAll members pairs)
      (pairs.foldl (fun history pair => history.put pair.1 pair.2) history) := by
  induction pairs generalizing members history with
  | nil => exact h
  | cons pair pairs ih => exact ih (h.put pair.1 pair.2)

/-- Values that are changed in place stay under their keys. -/
theorem Follows.mapMembers (h : Follows members history) (f : String → Value → Value) :
    Follows (Members.mapMembers members f)
      { history with value := fun key => (history.value key).map (f key) } := by
  refine ⟨fun key => by rw [get?_mapMembers, h.value], ?_⟩
  rw [keys_mapMembers, h.keys]
  exact (History.keys_congr fun key => Option.isSome_map).symm

/-- A change in place keeps the object in step. Where the key is absent, neither side changes. -/
theorem Follows.change (h : Follows members history) (key : String) (f : Value → Value) :
    Follows (Object.change members key f)
      { history with value := Function.update history.value key ((history.value key).map f) } := by
  have hvalue := h.value key
  rw [Object.change]
  cases hold : get? members key with
  | none =>
    rw [← hvalue, hold, Option.map_none,
      Function.update_eq_self_iff.2 (hvalue.symm.trans hold).symm]
    exact h
  | some old =>
    have present : history.has key = true := by rw [History.has, ← hvalue, hold]; rfl
    have hput := h.put key (f old)
    rw [History.put, if_pos present] at hput
    rwa [← hvalue, hold]

/-- Deleting a key keeps the object in step. The history still knows when the key was inserted, and
leaves it out because it is absent now. -/
theorem Follows.delete (h : Follows members history) (key : String) :
    Follows (Object.delete members key).2
      { history with value := Function.update history.value key none } := by
  have hvalue := h.value key
  rw [Object.delete]
  cases hold : get? members key with
  | none =>
    rw [Function.update_eq_self_iff.2 (hvalue.symm.trans hold).symm]
    exact h
  | some old =>
    refine ⟨fun other => ?_, ?_⟩
    · rw [get?_erase h.nodup, h.value]
      exact (Function.update_apply _ _ _ _).symm
    · have hnodup := h.nodup
      rw [keys_erase, hnodup.erase_eq_filter, h.keys, History.keys, History.keys,
        List.filter_filter]
      refine List.filter_congr fun other _ => ?_
      rw [History.has, History.has]
      dsimp only
      rw [Function.update_apply]
      by_cases hother : other = key
      · simp [hother]
      · simp [hother]

/-- Every call keeps an object in step with its history. -/
theorem Follows.run (h : Follows members history) (call : Call) :
    Follows (call.run members) (call.tell history) := by
  cases call with
  | set key value => exact h.put key value
  | change key f => exact h.change key f
  | delete key => exact h.delete key
  | extend pairs => exact h.putAll pairs
  | changeValues f => exact h.mapMembers fun _ => f
  | changeMembers f => exact h.mapMembers f
  | clear => exact ⟨fun _ => rfl, (List.filter_eq_nil_iff.2 nofun).symm⟩

/-- A run of calls keeps an object in step with its history. -/
theorem Follows.after (h : Follows members history) (calls : List Call) :
    Follows (after members calls) (calls.foldl Call.tell history) := by
  induction calls generalizing members history with
  | nil => exact h
  | cons call calls ih => exact ih (h.run call)

/-- An object made of pairs follows its history, since putting the pairs in is the first call. -/
theorem follows_historyOf (pairs : List (String × Value)) (calls : List Call) :
    Follows (after (ofPairs pairs) calls) (historyOf pairs calls) :=
  (Follows.empty.run (.extend pairs)).after calls

/-- Deleting a key that is present gives its value, and leaves the others in their order. -/
theorem delete_of_get? {key : String} {value : Value} (h : get? members key = some value) :
    (Object.delete members key).1 = .ok value ∧
      Members.keys (Object.delete members key).2 = (Members.keys members).erase key := by
  rw [Object.delete, h]
  exact ⟨rfl, keys_erase⟩

end

/-- An object made of pairs, after any calls. Its keys differ, and stand in the order in which they
were last inserted while absent. Look-up, length, values and members all agree with them. Putting in
a value gives the one that look-up gave before, and either keeps the keys or adds a last one; a key
that is absent cannot be deleted, which changes nothing. -/
theorem agrees_with_history (pairs : List (String × Value)) (calls : List Call) :
    let members := after (ofPairs pairs) calls
    let history := historyOf pairs calls
    (keys members).Nodup ∧ keys members = history.keys ∧
      (∀ key, get? members key = history.value key ∧
        (has members key = true ↔ key ∈ keys members)) ∧
      members.length = (keys members).length ∧
      values members = (keys members).filterMap history.value ∧
      members = (keys members).filterMap (fun key => (history.value key).map (key, ·)) ∧
      (∀ key value, (Object.set members key value).1 = get? members key ∧
        keys (Object.set members key value).2
          = if key ∈ keys members then keys members else keys members ++ [key]) ∧
      ∀ key, (∀ value, get? members key = some value → (Object.delete members key).1 = .ok value ∧
          keys (Object.delete members key).2 = (keys members).erase key) ∧
        (key ∉ keys members → Object.delete members key = (.error (.notFound key), members)) := by
  intro members history
  have h : Follows members history := follows_historyOf pairs calls
  have hvalue : get? members = history.value := funext h.value
  refine ⟨h.nodup, h.keys, fun key => ⟨h.value key, has_iff_mem_keys⟩, (List.length_map _).symm,
    ?_, ?_, fun key value => ⟨rfl, keys_put⟩, fun key => ⟨fun value => delete_of_get?, ?_⟩⟩
  · rw [← hvalue]
    exact values_eq_filterMap_keys h.nodup
  · rw [← hvalue]
    exact eq_filterMap_keys h.nodup
  · intro absent
    rw [Object.delete, get?_eq_none_iff.2 absent]

/-- A key that is deleted and put in again comes last; one that is replaced keeps its place. -/
example : keys (after (ofPairs [("a", .null), ("b", .null), ("a", .bool true)])
    [.delete "a", .set "b" (.bool true), .extend [("a", .null), ("c", .null)]])
      = ["b", "a", "c"] := by decide

end Object

end JsonDoc
