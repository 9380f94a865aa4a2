/-!
# `JsonDoc.Members`: members in order of insertion

The members of an object are a list of pairs of a key and a value. `Members.put` keeps the place
of a key that is present and appends one that is not, and `Members.erase` keeps the order of the
rest; so the keys stand in the order in which they were last inserted while absent.
`Members.ofPairs` puts pairs in one after the other: a repeated key keeps its first place and
takes its last value.

The lemmas give the effect of `put` and `erase` on look-up and on the list of keys.
-/

set_option autoImplicit false

namespace JsonDoc

/-- The members of an object, in order of insertion. -/
abbrev Members (α : Type) := List (String × α)

namespace Members

variable {α : Type}

/-- The value at `key`. -/
def get? (members : Members α) (key : String) : Option α := members.lookup key

/-- Whether `key` is present. -/
def has (members : Members α) (key : String) : Bool := (get? members key).isSome

/-- The object with `value` at `key`: in its place if the key is present, else at the end. -/
def put (members : Members α) (key : String) (value : α) : Members α :=
  if has members key then members.map fun m => if m.1 = key then (m.1, value) else m
  else members ++ [(key, value)]

/-- The object without `key`; the other members keep their order. -/
def erase (members : Members α) (key : String) : Members α := members.eraseP fun m => m.1 == key

/-- The keys, in order of insertion. -/
def keys (members : Members α) : List String := members.map Prod.fst

/-- The values, in the order of their keys. -/
def values (members : Members α) : List α := members.map Prod.snd

/-- The object with the pairs put in one after the other. -/
def putAll (members : Members α) (pairs : List (String × α)) : Members α :=
  pairs.foldl (fun members pair => put members pair.1 pair.2) members

/-- The object of the pairs. -/
def ofPairs (pairs : List (String × α)) : Members α := putAll [] pairs

/-- The members whose value satisfies `keep`. -/
def filterValues (members : Members α) (keep : α → Bool) : Members α :=
  members.filter fun m => keep m.2

/-- The object with each value replaced by what `f` makes of it and its key. -/
def mapMembers (members : Members α) (f : String → α → α) : Members α :=
  members.map fun m => (m.1, f m.1 m.2)

/-- Presence is membership in the list of keys, the form in which the lemmas below state it. -/
theorem has_iff_mem_keys {members : Members α} {key : String} :
    has members key = true ↔ key ∈ keys members := by
  simp [has, get?, keys]

/-- Putting a value in leaves the keys as they are, or adds a last one. -/
theorem keys_put {members : Members α} {key : String} {value : α} :
    keys (put members key value) =
      if key ∈ keys members then keys members else keys members ++ [key] := by
  by_cases h : key ∈ keys members
  · rw [put, if_pos (has_iff_mem_keys.2 h), if_pos h, keys, List.map_map]
    exact List.map_congr_left fun m _ => by dsimp only [Function.comp_apply]; split <;> rfl
  · rw [put, if_neg (by rwa [has_iff_mem_keys]), if_neg h]
    simp [keys]

/-- Erasing a key takes its first occurrence out of the list of keys. -/
theorem keys_erase {members : Members α} {key : String} :
    keys (erase members key) = (keys members).erase key := by
  induction members with
  | nil => rfl
  | cons m rest ih =>
    rcases Decidable.em (m.1 = key) with h | h
    · simp [erase, keys, h]
    · simpa [erase, keys, List.eraseP_cons, List.erase_cons, h] using ih

/-- Keys that differ still do after a value is put in: a key is only added while it is absent. -/
theorem nodup_keys_put {members : Members α} {key : String} {value : α}
    (h : (keys members).Nodup) : (keys (put members key value)).Nodup := by
  rw [keys_put]
  split
  · exact h
  · next absent =>
    rw [List.nodup_append]
    exact ⟨h, by simp, fun a ha b hb => by simp at hb; grind⟩

/-- Look-up at the first member, or in the rest. -/
theorem get?_cons (m : String × α) (members : Members α) (key : String) :
    get? (m :: members) key = if m.1 = key then some m.2 else get? members key := by
  rw [get?, List.lookup_cons]
  by_cases h : m.1 = key
  · simp [h]
  · have hbeq : (key == m.1) = false := by simpa using Ne.symm h
    rw [hbeq, if_neg h]
    rfl

/-- Look-up in the first list goes before that in the second. -/
theorem get?_append (members others : Members α) (key : String) :
    get? (members ++ others) key = (get? members key).or (get? others key) := by
  induction members with
  | nil => rfl
  | cons m rest ih =>
    rw [List.cons_append, get?_cons, get?_cons, ih]
    split <;> rfl

/-- Replacing the value of a key in place: look-up gives the new value at that key, if there was
one, and the old values at the others. -/
theorem get?_map_replace (members : Members α) (key other : String) (value : α) :
    get? (members.map fun m => if m.1 = key then (m.1, value) else m) other
      = (get? members other).map fun old => if other = key then value else old := by
  induction members with
  | nil => rfl
  | cons m rest ih =>
    rw [List.map_cons, get?_cons, get?_cons, ih]
    grind

/-- Look-up after a value is put in: the value at its key, and what was there before at any other.
This holds whether the key was present or not. -/
theorem get?_put (members : Members α) (key other : String) (value : α) :
    get? (put members key value) other
      = if other = key then some value else get? members other := by
  rw [put, has]
  cases h : get? members key with
  | none =>
    rw [if_neg (by simp), get?_append, get?_cons]
    by_cases hkey : other = key
    · subst hkey
      simp [h]
    · rw [if_neg hkey, if_neg (Ne.symm hkey)]
      simp [get?]
  | some old =>
    rw [if_pos (Option.isSome_some), get?_map_replace]
    by_cases hkey : other = key
    · subst hkey
      simp [h]
    · simp [hkey]

/-- Replacing the value of a key that is absent changes nothing. -/
theorem map_replace_of_absent {members : Members α} {key : String} {value : α}
    (absent : key ∉ keys members) :
    (members.map fun m => if m.1 = key then (m.1, value) else m) = members := by
  refine (List.map_congr_left fun m mem => ?_).trans (List.map_id members)
  have hne : m.1 ≠ key := by
    rintro rfl
    exact absent (List.mem_map_of_mem mem)
  rw [if_neg hne, id]

/-- The value put in last is the one that stays. -/
theorem put_put (members : Members α) (key : String) (a b : α) :
    put (put members key a) key b = put members key b := by
  have present : has (put members key a) key = true := by
    rw [has, get?_put, if_pos rfl]
    rfl
  rw [put, if_pos present, put, put]
  split
  · rw [List.map_map]
    exact List.map_congr_left fun m _ => by dsimp only [Function.comp_apply]; split <;> simp_all
  · next absent =>
    rw [has_iff_mem_keys] at absent
    rw [List.map_append, map_replace_of_absent absent]
    simp

/-- Putting in the value that is there changes nothing. -/
theorem put_eq_self {members : Members α} {key : String} {value : α}
    (nodup : (keys members).Nodup) (h : get? members key = some value) :
    put members key value = members := by
  rw [put, if_pos (by rw [has, h]; rfl)]
  induction members with
  | nil => rfl
  | cons m rest ih =>
    obtain ⟨hm, hrest⟩ := List.nodup_cons.1 nodup
    rw [get?_cons] at h
    rw [List.map_cons]
    split at h
    · next hkey =>
      cases h
      rw [if_pos hkey, map_replace_of_absent (by rwa [← hkey])]
    · next hkey => rw [if_neg hkey, ih hrest h]

end Members

end JsonDoc
