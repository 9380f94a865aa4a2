import JsonDoc.Proofs.Cache.Run
import Mathlib.Data.List.DropRight
import Mathlib.Data.List.Nodup

/-!
# `JsonDoc.Proofs.Cache.Eviction`: what a cache keeps, and for how long

A call to compile adds an instance if nothing is kept for the text, the text can be read, and the
cache may keep something (`Inserts`); otherwise it changes nothing. Before an instance is added the
oldest ones go, one after the other, until one more fits: `MakesRoom` is that loop, round by round.
It ends exactly where the cache may keep something, with the newest instances that leave room
(`makesRoom_iff`), whether none, one or many have to go.

So the texts kept are the last ones of those that were added since the cache was cleared
(`texts_after_suffix`), and they are never more than the largest size that applied since then
(`length_after_le`).

Two answers are one shared instance if it was kept all the time between them. `WellKept` is the
invariant behind this: no two entries have the same text, and each has a later number than those
before it. From an entry a run of calls leads to one of two ends (`kept_or_removed`): the entry is
still there, or some call took it out and no later answer has its number (`Stale`).
-/

set_option autoImplicit false

namespace JsonDoc.Cache

/-- The texts kept, oldest first. -/
def texts (cache : Cache) : List String := cache.entries.map fun entry => entry.path.text

/-- A call to compile the text adds an instance to the cache. -/
def Inserts (cache : Cache) (text : String) : Prop :=
  text ∉ cache.texts ∧ (Path.compile text).isOk ∧ 0 < cache.maxSize

instance (cache : Cache) (text : String) : Decidable (cache.Inserts text) :=
  inferInstanceAs (Decidable (_ ∧ _ ∧ _))

/-- The entries that go before one is added. -/
def evicted (cache : Cache) : List Instance :=
  cache.entries.take (cache.entries.length + 1 - cache.maxSize)

/-- The entries that stay when one is added. -/
def retained (cache : Cache) : List Instance :=
  cache.entries.drop (cache.entries.length + 1 - cache.maxSize)

/-- Making room for one more entry, round by round: as long as no more fits, the oldest one goes. -/
inductive MakesRoom (maxSize : Nat) : List Instance → List Instance → Prop where
  | done {entries : List Instance} : entries.length < maxSize → MakesRoom maxSize entries entries
  | round {entries left : List Instance} : maxSize ≤ entries.length →
      MakesRoom maxSize entries.tail left → MakesRoom maxSize entries left

namespace Call

/-- Any call but one that clears the cache. -/
def keeps : Call → Bool
  | clear => false
  | _ => true

/-- The texts that a call adds. -/
def inserted (cache : Cache) : Call → List String
  | compile text => if cache.Inserts text then [text] else []
  | _ => []

/-- The call takes the text out of the cache: it clears the cache, or it adds another text for
which this one has to make room. -/
def Removes (cache : Cache) (text : String) : Call → Prop
  | clear => text ∈ cache.texts
  | compile other => cache.Inserts other ∧ text ∈ cache.evicted.map fun entry => entry.path.text
  | resize _ => False

end Call

/-- The texts that calls add, one call after the other. -/
def insertedBy (cache : Cache) : List Call → List String
  | [] => []
  | call :: calls => call.inserted cache ++ insertedBy (call.run cache) calls

/-- The largest size that applies before, between and after calls. -/
def largestSize (cache : Cache) : List Call → Nat
  | [] => cache.maxSize
  | call :: calls => max cache.maxSize (largestSize (call.run cache) calls)

/-- The calls up to the last one that clears the cache, that one included. -/
def untilCleared (calls : List Call) : List Call := calls.rdropWhile Call.keeps

/-- The calls since the cache was cleared. -/
def sinceCleared (calls : List Call) : List Call := calls.rtakeWhile Call.keeps

section
variable {cache : Cache} {text : String}

/-! ### Making room -/

/-- The loop ends exactly where something may be kept, with the newest entries that leave room. -/
theorem makesRoom_iff {maxSize : Nat} {entries left : List Instance} :
    MakesRoom maxSize entries left ↔
      0 < maxSize ∧ left = entries.drop (entries.length + 1 - maxSize) := by
  constructor
  · intro h
    induction h with
    | done fits => exact ⟨by omega, by rw [show _ + 1 - maxSize = 0 by omega, List.drop_zero]⟩
    | @round entries left full _ ih =>
      refine ⟨ih.1, ?_⟩
      rw [ih.2, List.length_tail, List.drop_tail]
      congr 1
      -- A list that is full has an entry that goes, as something may be kept.
      have := ih.1
      omega
  · rintro ⟨pos, rfl⟩
    induction entries with
    | nil =>
      rw [List.drop_nil]
      exact .done pos
    | cons oldest rest ih =>
      by_cases full : maxSize ≤ (oldest :: rest).length
      · rw [List.length_cons] at full
        refine .round full ?_
        rwa [List.tail_cons, List.length_cons,
          show rest.length + 1 + 1 - maxSize = rest.length + 1 - maxSize + 1 by omega,
          List.drop_succ_cons]
      · rw [show (oldest :: rest).length + 1 - maxSize = 0 by omega]
        exact .done (Nat.not_le.1 full)

/-- The entries that go and those that stay are all entries, in their order. -/
theorem evicted_append_retained (cache : Cache) : cache.evicted ++ cache.retained = cache.entries :=
  List.take_append_drop _ _

/-- After room is made one entry less is kept than the cache may keep, or as many as there were. -/
theorem length_retained (pos : 0 < cache.maxSize) :
    cache.retained.length = min cache.entries.length (cache.maxSize - 1) := by
  rw [retained, List.length_drop]
  omega

/-! ### One call -/

/-- Nothing is found for a text exactly if it is none of those kept. -/
theorem find?_eq_none_iff : cache.find? text = none ↔ text ∉ cache.texts := by
  simp [find?, texts]

/-- The text of an entry is one of those kept. -/
theorem mem_texts {entry : Instance} (mem : entry ∈ cache.entries) :
    entry.path.text ∈ cache.texts := List.mem_map_of_mem mem

/-- A call to compile that adds an instance gives it the next number and makes room for it. -/
theorem compile_of_inserts (h : cache.Inserts text) :
    ∃ path, path.text = text ∧ compile text cache
      = (.ok ⟨cache.made, path⟩,
          ⟨cache.retained ++ [⟨cache.made, path⟩], cache.maxSize, cache.made + 1⟩) := by
  obtain ⟨absent, hok, pos⟩ := h
  cases hpath : Path.compile text with
  | error fault =>
    rw [hpath] at hok
    cases hok
  | ok path =>
    refine ⟨path, (Path.Grammar.compile_eq_ok_iff.1 hpath).1, ?_⟩
    rw [compile, find?_eq_none_iff.2 absent, hpath]
    simp only [add, if_neg (Nat.pos_iff_ne_zero.1 pos), retained]

/-- A call to compile that adds no instance leaves the entries and the size as they are. -/
theorem compile_of_not_inserts (h : ¬cache.Inserts text) :
    (compile text cache).2 = { cache with made := (compile text cache).2.made } := by
  obtain ⟨entry, -, heq⟩ | ⟨fault, -, heq⟩ | ⟨path, hpath, heq⟩ := compile_cases cache text
  · rw [heq]
  · rw [heq]
  · cases hfind : cache.find? text with
    | some entry =>
      rw [compile, hfind]
    | none =>
      have hzero : cache.maxSize = 0 := by
        by_contra hne
        refine h ⟨find?_eq_none_iff.1 hfind, ?_, Nat.pos_of_ne_zero hne⟩
        rw [hpath]
        rfl
      rw [heq, add, if_pos hzero]

/-- An answer is an entry, or it has the next number. -/
theorem mem_or_serial_of_compile {answer : Instance} (h : (compile text cache).1 = .ok answer) :
    answer ∈ cache.entries ∧ (compile text cache).2 = cache ∨
      text ∉ cache.texts ∧ answer.serial = cache.made ∧
        (compile text cache).2.made = cache.made + 1 := by
  rw [compile] at h ⊢
  cases hfind : cache.find? text with
  | some entry =>
    rw [hfind] at h
    cases h
    exact .inl ⟨(of_find? hfind).1, rfl⟩
  | none =>
    rw [hfind] at h
    cases hpath : Path.compile text with
    | error fault =>
      rw [hpath] at h
      cases h
    | ok path =>
      rw [hpath] at h
      cases h
      -- The number is used up even where the cache has no room for the instance.
      exact .inr ⟨find?_eq_none_iff.1 hfind, rfl, rfl⟩

/-- The path that is answered has the text that was asked for. -/
theorem text_of_compile {answer : Instance} (h : (compile text cache).1 = .ok answer) :
    answer.path.text = text := by
  obtain ⟨entry, hfind, heq⟩ | ⟨fault, -, heq⟩ | ⟨path, hpath, heq⟩ := compile_cases cache text
  · rw [heq] at h
    cases h
    exact (of_find? hfind).2
  · rw [heq] at h
    cases h
  · rw [heq] at h
    cases h
    exact (Path.Grammar.compile_eq_ok_iff.1 hpath).1

/-- No call takes a number back. -/
theorem made_le_run (cache : Cache) (call : Call) : cache.made ≤ (call.run cache).made := by
  cases call with
  | resize | clear => exact Nat.le_refl _
  | compile text =>
    rw [Call.run]
    obtain ⟨entry, -, heq⟩ | ⟨fault, -, heq⟩ | ⟨path, -, heq⟩ := compile_cases cache text
    · rw [heq]
    · rw [heq]
    · rw [heq]
      exact Nat.le_succ _

/-- What is an entry after a call was one before it, or it has the next number. -/
theorem mem_entries_run {call : Call} {entry : Instance} (h : entry ∈ (call.run cache).entries) :
    entry ∈ cache.entries ∨ entry.serial = cache.made := by
  cases call with
  | resize => exact .inl h
  | clear => cases h
  | compile text =>
    rw [Call.run] at h
    by_cases hinserts : cache.Inserts text
    · obtain ⟨path, -, heq⟩ := compile_of_inserts hinserts
      rw [heq, List.mem_append] at h
      obtain hkept | hfresh := h
      · exact .inl (List.mem_of_mem_drop hkept)
      · rw [List.mem_singleton.1 hfresh]
        exact .inr rfl
    · rw [compile_of_not_inserts hinserts] at h
      exact .inl h

/-- A call that does not clear the cache leaves the last of the texts kept and added. -/
theorem texts_run_suffix {call : Call} (h : call.keeps) :
    (call.run cache).texts <:+ cache.texts ++ call.inserted cache := by
  cases call with
  | clear => cases h
  | resize maxSize =>
    have hnone : Call.inserted cache (.resize maxSize) = [] := rfl
    rw [hnone, List.append_nil]
    exact List.suffix_rfl
  | compile text =>
    rw [Call.run, Call.inserted]
    split
    · next hinserts =>
      obtain ⟨path, rfl, heq⟩ := compile_of_inserts hinserts
      rw [heq, texts, List.map_append]
      exact List.suffix_append_self_iff.2 ((List.drop_suffix _ _).map _)
    · next hinserts =>
      rw [compile_of_not_inserts hinserts, List.append_nil]
      exact List.suffix_rfl

/-- After a call there are no more entries than before it, or no more than the size allows. -/
theorem length_run_le (cache : Cache) (call : Call) :
    (call.run cache).entries.length ≤ max cache.entries.length cache.maxSize := by
  cases call with
  | resize => exact Nat.le_max_left _ _
  | clear => exact Nat.zero_le _
  | compile text =>
    rw [Call.run]
    by_cases hinserts : cache.Inserts text
    · obtain ⟨path, -, heq⟩ := compile_of_inserts hinserts
      -- What stays is one less than the size, and the new entry fills the place.
      have pos := hinserts.2.2
      rw [heq, List.length_append, length_retained pos, List.length_singleton]
      omega
    · rw [compile_of_not_inserts hinserts]
      exact Nat.le_max_left _ _

/-! ### Many calls -/

/-- A run of calls can be split. -/
theorem after_append (cache : Cache) (calls more : List Call) :
    cache.after (calls ++ more) = (cache.after calls).after more := List.foldl_append

/-- As long as the cache is not cleared, the texts kept are the last ones of those that were there
and those that were added. Induction on the calls, with `texts_run_suffix` for each. -/
theorem texts_after_suffix {calls : List Call} (h : ∀ call ∈ calls, call.keeps) :
    (cache.after calls).texts <:+ cache.texts ++ cache.insertedBy calls := by
  induction calls generalizing cache with
  | nil => exact ⟨[], List.append_nil _ ▸ rfl⟩
  | cons call calls ih =>
    obtain ⟨hcall, hcalls⟩ := List.forall_mem_cons.1 h
    rw [insertedBy, ← List.append_assoc]
    exact (ih hcalls).trans (List.suffix_append_self_iff.2 (texts_run_suffix hcall))

/-- After calls there are no more entries than before them, or no more than the largest size that
applied. -/
theorem length_after_le (cache : Cache) (calls : List Call) :
    (cache.after calls).entries.length ≤ max cache.entries.length (cache.largestSize calls) := by
  induction calls generalizing cache with
  | nil => exact Nat.le_max_left _ _
  | cons call calls ih =>
    have hcall := length_run_le cache call
    have hcalls := ih (call.run cache)
    rw [largestSize]
    rw [after] at hcalls
    rw [after, List.foldl_cons]
    omega

/-- A cache that was just cleared, or that was never cleared, starts out empty. -/
theorem entries_untilCleared (maxSize : Nat) (calls : List Call) :
    ((ofSize maxSize).after (untilCleared calls)).entries = [] := by
  rcases List.eq_nil_or_concat (untilCleared calls) with hnil | ⟨earlier, last, hlast⟩
  · rw [hnil]
    rfl
  · rw [List.concat_eq_append] at hlast
    -- The last call of the run is the one at which `rdropWhile` stopped.
    have hclear : last = .clear := by
      have hne : calls.rdropWhile Call.keeps ≠ [] := by simp [← untilCleared.eq_def, hlast]
      have hnot := List.rdropWhile_last_not Call.keeps calls hne
      simp only [← untilCleared.eq_def, hlast, List.getLast_append_singleton] at hnot
      cases last with
      | clear => rfl
      | _ => cases hnot rfl
    rw [hlast, hclear, after_append]
    rfl

/-- None of the calls since the cache was cleared clears it. -/
theorem forall_mem_sinceCleared (calls : List Call) :
    ∀ call ∈ sinceCleared calls, call.keeps := fun _ mem => List.mem_rtakeWhile_imp mem

/-- A run of calls goes on from where the cache was last cleared. -/
theorem after_eq (maxSize : Nat) (calls : List Call) :
    (ofSize maxSize).after calls
      = ((ofSize maxSize).after (untilCleared calls)).after (sinceCleared calls) := by
  rw [← after_append, untilCleared, sinceCleared, List.rdropWhile_append_rtakeWhile]

/-! ### Entries and their numbers -/

/-- No two entries have the same text, and each has a later number than those before it. -/
structure WellKept (cache : Cache) : Prop where
  distinct : cache.texts.Nodup
  increasing : cache.entries.Pairwise fun a b => a.serial < b.serial
  numbered : ∀ entry ∈ cache.entries, entry.serial < cache.made

/-- An empty cache is well kept. -/
theorem WellKept.ofSize (maxSize : Nat) : (ofSize maxSize).WellKept :=
  ⟨List.nodup_nil, .nil, fun _ mem => absurd mem List.not_mem_nil⟩

/-- A call to compile keeps the invariant: an instance is only added for a text that is not kept,
and gets a number that no entry has. -/
theorem WellKept.compile (h : cache.WellKept) (text : String) :
    (compile text cache).2.WellKept := by
  by_cases hinserts : cache.Inserts text
  · obtain ⟨path, rfl, heq⟩ := compile_of_inserts hinserts
    have hsuffix : cache.retained <:+ cache.entries := List.drop_suffix _ _
    rw [heq]
    refine ⟨?_, ?_, ?_⟩
    · -- The new text was not kept before.
      rw [texts, List.map_append, List.nodup_append]
      refine ⟨h.distinct.sublist (hsuffix.map _).sublist, List.nodup_singleton _, ?_⟩
      rintro kept hkept fresh hfresh rfl
      rw [List.mem_singleton.1 hfresh] at hkept
      exact hinserts.1 (List.IsSuffix.mem hkept (hsuffix.map _))
    · -- The number is the next one, so every entry that stays has a smaller one.
      refine List.pairwise_append.2
        ⟨h.increasing.sublist hsuffix.sublist, List.pairwise_singleton _ _, ?_⟩
      intro kept hkept fresh hfresh
      rw [List.mem_singleton.1 hfresh]
      exact h.numbered kept (List.IsSuffix.mem hkept hsuffix)
    · intro entry mem
      obtain hkept | hfresh := List.mem_append.1 mem
      · exact Nat.lt_succ_of_lt (h.numbered entry (List.IsSuffix.mem hkept hsuffix))
      · rw [List.mem_singleton.1 hfresh]
        exact Nat.lt_succ_self _
  · have hmade := made_le_run cache (.compile text)
    rw [compile_of_not_inserts hinserts]
    refine ⟨h.distinct, h.increasing, fun entry mem => ?_⟩
    exact Nat.lt_of_lt_of_le (h.numbered entry mem) hmade

/-- Every call keeps the invariant. -/
theorem WellKept.run (h : cache.WellKept) (call : Call) : (call.run cache).WellKept := by
  cases call with
  | resize => exact ⟨h.distinct, h.increasing, h.numbered⟩
  | clear => exact ⟨List.nodup_nil, .nil, fun _ mem => absurd mem List.not_mem_nil⟩
  | compile text => exact h.compile text

/-- A run of calls keeps the invariant. -/
theorem WellKept.after (h : cache.WellKept) (calls : List Call) : (cache.after calls).WellKept := by
  induction calls generalizing cache with
  | nil => exact h
  | cons call calls ih => exact ih (h.run call)

/-- The number was given to an instance that is no entry any more. -/
def Stale (cache : Cache) (serial : Nat) : Prop :=
  serial < cache.made ∧ ∀ entry ∈ cache.entries, entry.serial ≠ serial

/-- A stale number stays stale: entries only come with a later number. -/
theorem Stale.run {serial : Nat} (h : cache.Stale serial) (call : Call) :
    (call.run cache).Stale serial := by
  refine ⟨Nat.lt_of_lt_of_le h.1 (made_le_run cache call), fun entry mem => ?_⟩
  obtain hold | hfresh := mem_entries_run mem
  · exact h.2 entry hold
  · rw [hfresh]
    exact Nat.ne_of_gt h.1

/-- A stale number stays stale over a run of calls. -/
theorem Stale.after {serial : Nat} (h : cache.Stale serial) (calls : List Call) :
    (cache.after calls).Stale serial := by
  induction calls generalizing cache with
  | nil => exact h
  | cons call calls ih => exact ih (h.run call)

/-- A number that is stale is never given out again. -/
theorem Stale.serial_ne {serial : Nat} (h : cache.Stale serial) {answer : Instance}
    (hanswer : (Cache.compile text cache).1 = .ok answer) : answer.serial ≠ serial := by
  obtain ⟨mem, -⟩ | ⟨-, hfresh, -⟩ := mem_or_serial_of_compile hanswer
  · exact h.2 answer mem
  · rw [hfresh]
    exact Nat.ne_of_gt h.1

/-- The entry is still there after a call, or the call takes its text out and its number is
stale. -/
theorem WellKept.kept_or_removed_by (h : cache.WellKept) {entry : Instance}
    (mem : entry ∈ cache.entries) (call : Call) :
    ¬call.Removes cache entry.path.text ∧ entry ∈ (call.run cache).entries ∨
      call.Removes cache entry.path.text ∧ (call.run cache).Stale entry.serial := by
  cases call with
  | resize => exact .inl ⟨id, mem⟩
  | clear =>
    refine .inr ⟨mem_texts mem, h.numbered entry mem, ?_⟩
    exact fun _ hnone => absurd hnone List.not_mem_nil
  | compile text =>
    rw [Call.run, Call.Removes]
    by_cases hinserts : cache.Inserts text
    · obtain ⟨path, -, heq⟩ := compile_of_inserts hinserts
      -- The entry is among those that go or among those that stay, and not among both.
      have hsplit := cache.evicted_append_retained
      have hdistinct := h.distinct
      have hincreasing := h.increasing
      rw [texts, ← hsplit, List.map_append, List.nodup_append] at hdistinct
      rw [← hsplit, List.pairwise_append] at hincreasing
      rw [← hsplit, List.mem_append] at mem
      rw [heq]
      obtain hevicted | hretained := mem
      · have hlt : entry.serial < cache.made := by
          refine h.numbered entry ?_
          rw [← hsplit]
          exact List.mem_append_left _ hevicted
        refine .inr ⟨⟨hinserts, List.mem_map_of_mem hevicted⟩, Nat.lt_succ_of_lt hlt, ?_⟩
        intro other hother
        obtain hkept | hfresh := List.mem_append.1 hother
        · exact Nat.ne_of_gt (hincreasing.2.2 entry hevicted other hkept)
        · rw [List.mem_singleton.1 hfresh]
          exact Nat.ne_of_gt hlt
      · refine .inl ⟨fun hremoves => ?_, List.mem_append_left _ hretained⟩
        exact hdistinct.2.2 _ hremoves.2 _ (List.mem_map_of_mem hretained) rfl
    · rw [compile_of_not_inserts hinserts]
      exact .inl ⟨fun hremoves => hinserts hremoves.1, mem⟩

/-- The entry is still there after some calls, or one of them took its text out and its number is
stale. -/
theorem WellKept.kept_or_removed (h : cache.WellKept) {entry : Instance}
    (mem : entry ∈ cache.entries) (calls : List Call) :
    (∀ earlier call later, calls = earlier ++ call :: later →
        ¬call.Removes (cache.after earlier) entry.path.text) ∧
        entry ∈ (cache.after calls).entries ∨
      (∃ earlier call later, calls = earlier ++ call :: later ∧
        call.Removes (cache.after earlier) entry.path.text) ∧
        (cache.after calls).Stale entry.serial := by
  induction calls generalizing cache with
  | nil => exact .inl ⟨by simp, mem⟩
  | cons first calls ih =>
    -- The first call takes the entry out, one of the later ones does, or none.
    obtain ⟨hfirst, hkept⟩ | ⟨hfirst, hstale⟩ := h.kept_or_removed_by mem first
    · obtain ⟨hcalls, hlast⟩ | ⟨⟨earlier, call, later, rfl, hremoves⟩, hstale⟩ :=
        ih (h.run first) hkept
      · refine .inl ⟨?_, hlast⟩
        intro earlier call later hsplit
        cases earlier with
        | nil =>
          cases hsplit
          exact hfirst
        | cons first' earlier =>
          cases hsplit
          exact hcalls earlier call later rfl
      · exact .inr ⟨⟨first :: earlier, call, later, rfl, hremoves⟩, hstale⟩
    · exact .inr ⟨⟨[], first, calls, rfl, hfirst⟩, hstale.after calls⟩

/-- An entry is the answer for its text. -/
theorem WellKept.compile_of_mem (h : cache.WellKept) {entry : Instance}
    (mem : entry ∈ cache.entries) : Cache.compile entry.path.text cache = (.ok entry, cache) := by
  cases hfind : cache.find? entry.path.text with
  | none => exact absurd (mem_texts mem) (find?_eq_none_iff.1 hfind)
  | some found =>
    obtain ⟨hfound, htext⟩ := of_find? hfind
    have hsame : found = entry := List.inj_on_of_nodup_map h.distinct hfound mem htext
    rw [Cache.compile, hfind, hsame]

/-- An answer is kept for its text, or nothing is and its number is stale at once. -/
theorem WellKept.mem_or_stale_of_compile (h : cache.WellKept) {answer : Instance}
    (hanswer : (Cache.compile text cache).1 = .ok answer) :
    answer ∈ (Cache.compile text cache).2.entries ∨
      text ∉ (Cache.compile text cache).2.texts ∧
        (Cache.compile text cache).2.Stale answer.serial := by
  by_cases hinserts : cache.Inserts text
  · obtain ⟨path, -, heq⟩ := compile_of_inserts hinserts
    rw [heq] at hanswer ⊢
    cases hanswer
    exact .inl (List.mem_append_right _ List.mem_cons_self)
  · have hsame := compile_of_not_inserts hinserts
    obtain ⟨mem, heq⟩ | ⟨absent, hserial, hmade⟩ := mem_or_serial_of_compile hanswer
    · rw [heq]
      exact .inl mem
    · rw [hmade] at hsame
      rw [hsame]
      refine .inr ⟨absent, hserial ▸ Nat.lt_succ_self _, fun entry mem => ?_⟩
      rw [hserial]
      exact Nat.ne_of_lt (h.numbered entry mem)

/-- Two answers for a text are one instance exactly if it was kept after the first and no call in
between took it out. -/
theorem WellKept.serial_eq_iff (h : cache.WellKept) {first second : Instance} {between : List Call}
    (hfirst : (Cache.compile text cache).1 = .ok first)
    (hsecond : (Cache.compile text ((Cache.compile text cache).2.after between)).1 = .ok second) :
    first.serial = second.serial ↔
      text ∈ (Cache.compile text cache).2.texts ∧
        ∀ earlier call later, between = earlier ++ call :: later →
          ¬call.Removes ((Cache.compile text cache).2.after earlier) text := by
  have htext := text_of_compile hfirst
  have hkept := h.compile text
  obtain mem | ⟨absent, hstale⟩ := h.mem_or_stale_of_compile hfirst
  · subst htext
    obtain ⟨hnever, hlast⟩ | ⟨⟨earlier, call, later, hsplit, hremoves⟩, hstale⟩ :=
      hkept.kept_or_removed mem between
    · rw [(hkept.after between).compile_of_mem hlast] at hsecond
      cases hsecond
      exact iff_of_true rfl ⟨mem_texts mem, hnever⟩
    · refine iff_of_false (hstale.serial_ne hsecond).symm fun hnever => ?_
      exact hnever.2 earlier call later hsplit hremoves
  · exact iff_of_false ((hstale.after between).serial_ne hsecond).symm fun hnever => absent hnever.1

end

/-- A cache after any calls. It keeps the last ones of the texts that were added since it was
cleared, each once, and never more than the largest size that applied since then. A call to compile
that finds the text, that cannot read it, or that may keep nothing changes nothing; any other ends
with the newest entries that leave room, and behind them the new one. Two answers for a text are one
instance exactly if it was kept after the first and no call in between took it out. -/
theorem keeps_latest (maxSize : Nat) (calls : List Call) :
    let cleared := (ofSize maxSize).after (untilCleared calls)
    let cache := (ofSize maxSize).after calls
    (cache.texts.Nodup ∧ cache.texts <:+ cleared.insertedBy (sinceCleared calls)) ∧
      cache.entries.length ≤ cleared.largestSize (sinceCleared calls) ∧
      ∀ text,
        (text ∈ cache.texts ∨ (∃ fault, Path.compile text = .error fault) ∨ cache.maxSize = 0 →
          (compile text cache).2 = { cache with made := (compile text cache).2.made }) ∧
        (cache.Inserts text → ∃ left fresh, MakesRoom cache.maxSize cache.entries left ∧
          left <:+ cache.entries ∧ fresh.path.text = text ∧
          compile text cache = (.ok fresh, ⟨left ++ [fresh], cache.maxSize, cache.made + 1⟩) ∧
          (compile text cache).2.entries.length
            = min cache.entries.length (cache.maxSize - 1) + 1) ∧
        ∀ between first second, (compile text cache).1 = .ok first →
          (compile text ((compile text cache).2.after between)).1 = .ok second →
            (first.serial = second.serial ↔
              text ∈ (compile text cache).2.texts ∧
                ∀ earlier call later, between = earlier ++ call :: later →
                  ¬call.Removes ((compile text cache).2.after earlier) text) := by
  intro cleared cache
  have hkept : cache.WellKept := (WellKept.ofSize maxSize).after calls
  have hcache : cache = cleared.after (sinceCleared calls) := after_eq maxSize calls
  have hempty : cleared.entries = [] := entries_untilCleared maxSize calls
  refine ⟨⟨hkept.distinct, ?_⟩, ?_, fun text => ⟨?_, ?_, ?_⟩⟩
  · -- What is kept came in after the cache was cleared.
    have hsuffix := @texts_after_suffix cleared _ (forall_mem_sinceCleared calls)
    have hnone : cleared.texts = [] := by rw [texts, hempty, List.map_nil]
    rwa [← hcache, hnone] at hsuffix
  · have hlength := length_after_le cleared (sinceCleared calls)
    rwa [← hcache, hempty, List.length_nil, Nat.zero_max] at hlength
  · intro h
    refine compile_of_not_inserts fun ⟨absent, hok, pos⟩ => ?_
    obtain hmem | ⟨fault, hfault⟩ | hzero := h
    · exact absent hmem
    · rw [hfault] at hok
      cases hok
    · omega
  · intro hinserts
    obtain ⟨path, htext, heq⟩ := compile_of_inserts hinserts
    refine ⟨cache.retained, _, makesRoom_iff.2 ⟨hinserts.2.2, rfl⟩, List.drop_suffix _ _, htext,
      heq, ?_⟩
    rw [heq, List.length_append, length_retained hinserts.2.2, List.length_singleton]
  · intro between first second hfirst hsecond
    exact hkept.serial_eq_iff hfirst hsecond

/-- Two paths are kept when the size shrinks to one, and both go when a third is added; the last of
them is then made anew. -/
theorem keeps_latest_shrunk :
    ∃ cache : Cache, cache = (ofSize 2).after [.compile "", .compile "$", .resize 1] ∧
      cache.texts = ["", "$"] ∧ cache.Inserts "$.a" ∧ MakesRoom 1 cache.entries [] ∧
      (compile "$.a" cache).2.texts = ["$.a"] ∧
      ∃ first second, (compile "$" cache).1 = .ok first ∧
        (compile "$" ((compile "$" cache).2.after [.compile "$.a"])).1 = .ok second ∧
        first.serial ≠ second.serial := by
  obtain ⟨-, -, hcalls⟩ := keeps_latest 2 [.compile "", .compile "$", .resize 1]
  have hinserts : ((ofSize 2).after [.compile "", .compile "$", .resize 1]).Inserts "$.a" := by
    decide
  obtain ⟨left, fresh, hroom, -, htext, heq, -⟩ := (hcalls "$.a").2.1 hinserts
  have hleft : left = [] := (makesRoom_iff.1 hroom).2
  subst hleft
  have hsame := (hcalls "$").2.2 [.compile "$.a"] _ _ rfl rfl
  refine ⟨_, rfl, by decide, hinserts, hroom, ?_, _, _, rfl, rfl, ?_⟩
  · rw [heq, ← htext]
    rfl
  · rw [Ne, hsame]
    intro hnever
    exact hnever.2 [] (.compile "$.a") [] rfl ⟨by decide, by decide⟩

end JsonDoc.Cache
