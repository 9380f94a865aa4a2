/-!
# `JsonDoc.Proofs.Outcome`: opening sequences of steps that can fail

Readers and edits are sequences of steps in `Except`. A sequence whose first step gives a result
goes on from there (`ok_bind`), and one whose first step fails is a failure
(`exists_bind_eq_error`). It gives a result exactly when its first step gives one and the rest
gives the result from there (`bind_eq_ok_iff`), and it fails exactly when one of the two does
(`bind_eq_error_iff`).
-/

set_option autoImplicit false

namespace JsonDoc

variable {ε α β : Type}

/-- A first step that succeeds hands its result to the second. -/
theorem ok_bind (a : α) (f : α → Except ε β) : (Except.ok a >>= f) = f a := rfl

/-- Two steps succeed if the first does and the second does with its result. This takes a run of
steps apart without a case split. -/
theorem bind_eq_ok_iff {x : Except ε α} {f : α → Except ε β} {b : β} :
    x >>= f = .ok b ↔ ∃ a, x = .ok a ∧ f a = .ok b := by
  cases x with
  | ok a => simp [bind, Except.bind]
  | error e => simp [bind, Except.bind]

/-- A sequence fails where its first step does, or where the rest does from there. -/
theorem bind_eq_error_iff {x : Except ε α} {f : α → Except ε β} {e : ε} :
    x >>= f = .error e ↔ x = .error e ∨ ∃ a, x = .ok a ∧ f a = .error e := by
  cases x with
  | ok a => simp [bind, Except.bind]
  | error e => simp [bind, Except.bind]

/-- A sequence whose rest does not fail fails in its first step. -/
theorem eq_error_of_bind {x : Except ε α} {f : α → Except ε β} {e : ε}
    (hf : ∀ a, ∃ b, f a = .ok b) (h : x >>= f = .error e) : x = .error e := by
  obtain h | ⟨a, -, h⟩ := bind_eq_error_iff.1 h
  · exact h
  · obtain ⟨b, hb⟩ := hf a
    rw [hb] at h
    cases h

/-- The failure of the first step is the failure of the sequence. -/
theorem exists_bind_eq_error {x : Except ε α} {f : α → Except ε β} (h : ∃ e, x = .error e) :
    ∃ e, x >>= f = .error e := by
  obtain ⟨e, rfl⟩ := h
  exact ⟨e, rfl⟩

end JsonDoc
