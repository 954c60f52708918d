import Mathlib.Data.List.Forall2
import SingleAssignment.Proofs.Outcome

/-!
# Two computations side by side

Two computations go in lockstep if they succeed together or fail together, with answers, faults and
states that belong together.  The rules of this module follow the way computations are put together,
so a statement about two runs of one program is proved along its text.

* `Agree` — two results without a state.
* `Paired` — two results with the states they leave behind.
* `Lockstep` — from states that belong together, the two computations give paired results.
* `Tandem` — the same as long as both succeed.
-/

namespace SingleAssignment

variable {ε σ σ' α α' β β' γ γ' : Type} {E : ε → ε → Prop} {R : σ → σ' → Prop} {A : α → α' → Prop}
  {B : β → β' → Prop}

/-! ## Results without a state -/

/-- Both succeed with answers in `A`, or both fail with faults in `E`. -/
inductive Agree (E : ε → ε → Prop) (A : α → α' → Prop) : Except ε α → Except ε α' → Prop where
  | ok {a : α} {a' : α'} : A a a' → Agree E A (.ok a) (.ok a')
  | error {e e' : ε} : E e e' → Agree E A (.error e) (.error e')

namespace Agree

theorem bind {x : Except ε α} {x' : Except ε α'} {f : α → Except ε β} {f' : α' → Except ε β'}
    (hx : Agree E A x x') (hf : ∀ a a', A a a' → Agree E B (f a) (f' a')) :
    Agree E B (x >>= f) (x' >>= f') := by
  cases hx with
  | ok ha => exact hf _ _ ha
  | error he => exact .error he

theorem imp {A' : α → α' → Prop} {x : Except ε α} {x' : Except ε α'} (hA : ∀ a a', A a a' → A' a a')
    (hx : Agree E A x x') : Agree E A' x x' := by
  cases hx with
  | ok ha => exact .ok (hA _ _ ha)
  | error he => exact .error he

/-- The answers of the two computations are what the computations answer. -/
theorem answers {x : Except ε α} {x' : Except ε α'} (hx : Agree E A x x') :
    Agree E (fun a a' => A a a' ∧ x = .ok a ∧ x' = .ok a') x x' := by
  cases hx with
  | ok ha => exact .ok ⟨ha, rfl, rfl⟩
  | error he => exact .error he

/-- Folding along two lists keeps what each step keeps. -/
theorem foldlM {P : γ → γ' → Prop} {f : α → γ → Except ε α} {f' : α' → γ' → Except ε α'}
    (hf : ∀ a a' c c', A a a' → P c c' → Agree E A (f a c) (f' a' c')) {cs : List γ}
    {cs' : List γ'} (hcs : List.Forall₂ P cs cs') {a : α} {a' : α'} (ha : A a a') :
    Agree E A (cs.foldlM f a) (cs'.foldlM f' a') := by
  induction hcs generalizing a a' with
  | nil => exact .ok ha
  | cons hc _ ih =>
      rw [List.foldlM_cons, List.foldlM_cons]
      exact (hf _ _ _ _ ha hc).bind fun _ _ hb => ih hb

end Agree

/-! ## Results with a state -/

/-- Both succeed with answers in `A`, or both fail with faults in `E`, and the states are in `R`. -/
inductive Paired (E : ε → ε → Prop) (R : σ → σ' → Prop) (A : α → α' → Prop) :
    EStateM.Result ε σ α → EStateM.Result ε σ' α' → Prop where
  | ok {a : α} {a' : α'} {s : σ} {s' : σ'} : A a a' → R s s' → Paired E R A (.ok a s) (.ok a' s')
  | error {e e' : ε} {s : σ} {s' : σ'} : E e e' → R s s' →
      Paired E R A (.error e s) (.error e' s')

/-- From states in `R` the computations give paired results. -/
def Lockstep (E : ε → ε → Prop) (R : σ → σ' → Prop) (A : α → α' → Prop) (x : EStateM ε σ α)
    (x' : EStateM ε σ' α') : Prop :=
  ∀ ⦃s : σ⦄ ⦃s' : σ'⦄, R s s' → Paired E R A (x s) (x' s')

namespace Lockstep

theorem pure {a : α} {a' : α'} (h : A a a') :
    Lockstep E R A (pure a : EStateM ε σ α) (pure a' : EStateM ε σ' α') :=
  fun _ _ hs => .ok h hs

theorem throw {e e' : ε} (h : E e e') :
    Lockstep E R A (throw e : EStateM ε σ α) (throw e' : EStateM ε σ' α') :=
  fun _ _ hs => .error h hs

theorem bind {x : EStateM ε σ α} {x' : EStateM ε σ' α'} {f : α → EStateM ε σ β}
    {f' : α' → EStateM ε σ' β'} (hx : Lockstep E R A x x')
    (hf : ∀ a a', A a a' → Lockstep E R B (f a) (f' a')) :
    Lockstep E R B (x >>= f) (x' >>= f') := by
  intro s s' hs
  have hpair := hx hs
  cases hr : x s with
  | ok a t =>
      cases hr' : x' s' with
      | ok a' t' =>
          rw [hr, hr'] at hpair
          rw [Outcome.run_bind_ok hr, Outcome.run_bind_ok hr']
          cases hpair with
          | ok ha ht => exact hf a a' ha ht
      | error e' t' =>
          rw [hr, hr'] at hpair
          cases hpair
  | error e t =>
      cases hr' : x' s' with
      | ok a' t' =>
          rw [hr, hr'] at hpair
          cases hpair
      | error e' t' =>
          rw [hr, hr'] at hpair
          rw [Outcome.run_bind_error hr, Outcome.run_bind_error hr']
          cases hpair with
          | error he ht => exact .error he ht

theorem ofExcept {x : Except ε α} {x' : Except ε α'} (h : Agree E A x x') :
    Lockstep E R A (MonadExcept.ofExcept x : EStateM ε σ α)
      (MonadExcept.ofExcept x' : EStateM ε σ' α') := by
  intro s s' hs
  cases h with
  | ok ha => exact .ok ha hs
  | error he => exact .error he hs

theorem get : Lockstep E R R (get : EStateM ε σ σ) (get : EStateM ε σ' σ') :=
  fun _ _ hs => .ok hs hs

theorem set {s : σ} {s' : σ'} (h : R s s') :
    Lockstep E R (fun _ _ => True) (set s : EStateM ε σ PUnit) (set s' : EStateM ε σ' PUnit) :=
  fun _ _ _ => .ok trivial h

end Lockstep

/-! ## Computations that may run short -/

/-- From states in `R`, if both computations succeed then their answers are in `A` and their states
in `R`.  Nothing is said if one of them fails. -/
def Tandem (R : σ → σ' → Prop) (A : α → α' → Prop) (x : EStateM ε σ α) (x' : EStateM ε σ' α') :
    Prop :=
  ∀ ⦃s : σ⦄ ⦃s' : σ'⦄, R s s' → ∀ ⦃a : α⦄ ⦃t : σ⦄ ⦃a' : α'⦄ ⦃t' : σ'⦄,
    x s = .ok a t → x' s' = .ok a' t' → A a a' ∧ R t t'

theorem Lockstep.tandem {x : EStateM ε σ α} {x' : EStateM ε σ' α'} (h : Lockstep E R A x x') :
    Tandem R A x x' := by
  intro s s' hs a t a' t' hx hx'
  have hpair := h hs
  rw [hx, hx'] at hpair
  cases hpair with
  | ok ha ht => exact ⟨ha, ht⟩

namespace Tandem

theorem pure {a : α} {a' : α'} (h : A a a') :
    Tandem R A (pure a : EStateM ε σ α) (pure a' : EStateM ε σ' α') := by
  intro s s' hs b t b' t' hx hx'
  obtain ⟨rfl, rfl⟩ := Outcome.of_run_pure hx
  obtain ⟨rfl, rfl⟩ := Outcome.of_run_pure hx'
  exact ⟨h, hs⟩

theorem bind {x : EStateM ε σ α} {x' : EStateM ε σ' α'} {f : α → EStateM ε σ β}
    {f' : α' → EStateM ε σ' β'} (hx : Tandem R A x x')
    (hf : ∀ a a', A a a' → Tandem R B (f a) (f' a')) : Tandem R B (x >>= f) (x' >>= f') := by
  intro s s' hs b t b' t' h h'
  obtain ⟨a, u, ha, hb⟩ := Outcome.of_run_bind h
  obtain ⟨a', u', ha', hb'⟩ := Outcome.of_run_bind h'
  obtain ⟨hA, hR⟩ := hx hs ha ha'
  exact hf a a' hA hR hb hb'

end Tandem

end SingleAssignment
