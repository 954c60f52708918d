import SingleAssignment.Proofs.Supply

/-!
# How many locals a computation draws

A computation that draws on a supply has a cost: the number of locals it takes.  It succeeds iff the
supply holds that many, and it fails for no other reason.

* `Draws` — a computation with its cost.
* `Draws.bind` — costs add up along a computation.
* `Supply.draws_reserve` — reserving `n` locals costs `n`, if a list has room for them.
-/

namespace SingleAssignment

variable {σ α β : Type} {supply : σ → Supply} {used : LocalSet}

/-- The computation takes `cost` locals from the supply inside its state.  If the supply holds so
many, the answer is as `post` says; if not, the locals are exhausted. -/
structure Draws (supply : σ → Supply) (used : LocalSet) (x : EStateM Fault σ α) (cost : Nat)
    (post : α → Prop) : Prop where
  enough : ∀ {n : Nat} {s : σ}, (supply s).Holds used (n + cost) →
    ∃ a s', x s = .ok a s' ∧ (supply s').Holds used n ∧ post a
  short : ∀ {n : Nat} {s : σ}, (supply s).Holds used n → n < cost →
    ∃ s', x s = .error .localsExhausted s'

namespace Draws

/-- A computation that succeeds and leaves the supply alone costs nothing. -/
theorem of_ok {x : EStateM Fault σ α} {post : α → Prop}
    (h : ∀ s, ∃ a s', x s = .ok a s' ∧ supply s' = supply s ∧ post a) :
    Draws supply used x 0 post := by
  refine ⟨fun hs => ?_, fun _ hlt => absurd hlt (Nat.not_lt_zero _)⟩
  rename_i s
  obtain ⟨a, s', hx, hsame, ha⟩ := h s
  exact ⟨a, s', hx, hsame ▸ hs, ha⟩

theorem pure {a : α} {post : α → Prop} (h : post a) :
    Draws supply used (pure a : EStateM Fault σ α) 0 post :=
  of_ok fun s => ⟨a, s, rfl, rfl, h⟩

/-- **Costs add up.** -/
theorem bind {x : EStateM Fault σ α} {f : α → EStateM Fault σ β} {c d : Nat} {mid : α → Prop}
    {post : β → Prop} (hx : Draws supply used x c mid)
    (hf : ∀ a, mid a → Draws supply used (f a) d post) :
    Draws supply used (x >>= f) (c + d) post := by
  constructor
  · intro n s hs
    rw [← Nat.add_assoc, Nat.add_right_comm] at hs
    obtain ⟨a, t, hrun, ht, ha⟩ := hx.enough hs
    rw [Outcome.run_bind_ok hrun]
    exact (hf a ha).enough ht
  · intro n s hs hlt
    rcases Nat.lt_or_ge n c with hn | hn
    · obtain ⟨t, hrun⟩ := hx.short hs hn
      exact ⟨t, Outcome.run_bind_error hrun f⟩
    · -- the first part succeeds and leaves too little for the second
      obtain ⟨m, rfl⟩ : ∃ m, n = m + c := ⟨n - c, by omega⟩
      obtain ⟨a, t, hrun, ht, ha⟩ := hx.enough hs
      rw [Outcome.run_bind_ok hrun]
      exact (hf a ha).short ht (by omega)

/-- A step that only answers costs nothing. -/
theorem of_answer {x : EStateM Fault σ α} {f : α → EStateM Fault σ β} {a : α} {c : Nat}
    {post : β → Prop} (hx : ∀ s, x s = .ok a s) (hf : Draws supply used (f a) c post) :
    Draws supply used (x >>= f) c post := by
  constructor
  · intro n s hs
    rw [Outcome.run_bind_ok (hx s)]
    exact hf.enough hs
  · intro n s hs hlt
    rw [Outcome.run_bind_ok (hx s)]
    exact hf.short hs hlt

theorem of_eq {x : EStateM Fault σ α} {c d : Nat} {post : α → Prop}
    (h : Draws supply used x c post) (heq : c = d) : Draws supply used x d post :=
  heq ▸ h

/-- What is known of the successful runs is known of the answer. -/
theorem and_run {x : EStateM Fault σ α} {c : Nat} {post post' : α → Prop}
    (h : Draws supply used x c post)
    (hpost : ∀ {n s a s'}, (supply s).Holds used n → x s = .ok a s' → post a → post' a) :
    Draws supply used x c post' := by
  refine ⟨fun hs => ?_, h.short⟩
  obtain ⟨a, s', hrun, hs', ha⟩ := h.enough hs
  exact ⟨a, s', hrun, hs', hpost hs hrun ha⟩

theorem imp {x : EStateM Fault σ α} {c : Nat} {post post' : α → Prop}
    (h : Draws supply used x c post) (himp : ∀ a, post a → post' a) :
    Draws supply used x c post' :=
  h.and_run fun _ _ ha => himp _ ha

end Draws

namespace Supply

theorem draws_fresh : Draws id used fresh 1 fun _ => True := by
  constructor
  · intro n s hs
    obtain ⟨x, s', m, hm, hx, hs'⟩ | ⟨h0, -⟩ := Holds.fresh_cases hs
    · obtain rfl : n = m := by omega
      exact ⟨x, s', hx, hs', trivial⟩
    · omega
  · intro n s hs hlt
    obtain ⟨_, _, m, hm, -⟩ | ⟨-, he⟩ := Holds.fresh_cases hs
    · omega
    · exact ⟨s, he⟩

theorem draws_mint (n : Nat) : Draws id used (mint n) n (·.length = n) := by
  induction n with
  | zero => exact .pure rfl
  | succ n ih =>
      refine (draws_fresh.bind fun x _ => ih.bind (d := 0) fun xs hxs => .pure ?_).of_eq (by omega)
      rw [List.length_cons, hxs]

/-- **Reserving costs as many locals as are asked for.** -/
theorem draws_reserve {n : Nat} (h : n ≤ largestRequest) :
    Draws id used (reserve n) n (·.length = n) := by
  rw [reserve_of_le h]
  exact draws_mint n

end Supply

end SingleAssignment
