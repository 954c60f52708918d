/-!
# Steps of a computation

A computation that succeeds in the end has succeeded at every step.  These lemmas take a successful
result apart, one step at a time; the last ones go on from the result of a first step.
-/

namespace SingleAssignment

variable {ε σ α β : Type}

theorem Outcome.of_run_bind {x : EStateM ε σ α} {f : α → EStateM ε σ β} {s s' : σ} {b : β}
    (h : (x >>= f) s = .ok b s') : ∃ a t, x s = .ok a t ∧ f a t = .ok b s' := by
  change EStateM.bind x f s = .ok b s' at h
  unfold EStateM.bind at h
  split at h
  · rename_i a t hx
    exact ⟨a, t, hx, h⟩
  · cases h

theorem Outcome.of_run_pure {a b : α} {s s' : σ} (h : (pure a : EStateM ε σ α) s = .ok b s') :
    a = b ∧ s = s' := by
  change EStateM.Result.ok a s = .ok b s' at h
  cases h
  exact ⟨rfl, rfl⟩

theorem Outcome.run_bind_ok {x : EStateM ε σ α} {s t : σ} {a : α} (h : x s = .ok a t)
    (f : α → EStateM ε σ β) : (x >>= f) s = f a t := by
  change EStateM.bind x f s = f a t
  unfold EStateM.bind
  rw [h]

theorem Outcome.run_bind_error {x : EStateM ε σ α} {s t : σ} {e : ε} (h : x s = .error e t)
    (f : α → EStateM ε σ β) : (x >>= f) s = .error e t := by
  change EStateM.bind x f s = .error e t
  unfold EStateM.bind
  rw [h]

end SingleAssignment
