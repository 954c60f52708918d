import Mathlib.Logic.Function.Basic
import SingleAssignment.Proofs.Convert.Record

/-!
# Running instructions

Instructions with or without phis are run in the same way.  An interpretation says what assignments
compute and how conditional branches decide; the rest is control.  A phi is evaluated each time
control arrives at the instruction with its offset: it takes the value of the contributor that has
been assigned last.

* `Listing` — instructions and phis.
* `Listing.step` — one step of a run and what can be seen of it: the offset of the instruction and
  the values of its operands.
* `Listing.trace` — what can be seen of the first steps of a run.
-/

namespace SingleAssignment

variable {τ V : Type}

/-- What assignments compute and how conditional branches decide. -/
structure Interpretation (τ V : Type) where
  value : τ → List V → V
  decision : τ → List V → Bool

/-- Instructions in order, and the phis in front of them. -/
structure Listing (τ : Type) where
  code : List (Instruction τ)
  phis : List Phi := []

/-- The instructions of a program. -/
def Program.listing (p : Program τ) : Listing τ := { code := p.instructions.toList }

/-- The instructions and phis that a recorder has kept. -/
def Recorder.listing (r : Recorder τ) : Listing τ := ⟨r.instructions, r.phis⟩

/-- A point of a run: where control is, the values of the locals, and the destinations assigned so
far, latest first. -/
structure RunPoint (V : Type) where
  position : Nat := 0
  values : Local → V
  executed : List Local := []

/-- What can be seen of a step. -/
structure Observation (V : Type) where
  offset : Offset
  operands : List V

/-- The contributor of a phi that has been assigned last. -/
def Phi.latest? (φ : Phi) (executed : List Local) : Option Local :=
  executed.find? fun y => φ.contributors.any (·.value == y)

/-- Evaluate phis one after the other; a phi without an assigned contributor has no value. -/
def evaluatePhis : List Phi → RunPoint V → Option (RunPoint V)
  | [], s => some s
  | φ :: φs, s =>
      match φ.latest? s.executed with
      | none => none
      | some y =>
          evaluatePhis φs { s with values := Function.update s.values φ.result (s.values y) }

namespace Listing

variable (L : Listing τ) (I : Interpretation τ V)

/-- Where control goes from position `k`.  A branch to an offset without an instruction leads out of
the listing. -/
def next (i : Instruction τ) (operands : List V) (k : Nat) : Nat :=
  match i.branch? with
  | none => k + 1
  | some (conditional, target) =>
      if conditional && !I.decision i.tag operands then k + 1
      else (L.code.findIdx? (·.offset == target)).getD L.code.length

/-- Execute an instruction with the values of its operands. -/
def execute (i : Instruction τ) (operands : List V) (s : RunPoint V) : RunPoint V where
  position := L.next I i operands s.position
  values :=
    match i.destination? with
    | none => s.values
    | some x => Function.update s.values x (I.value i.tag operands)
  executed := i.destination?.toList ++ s.executed

/-- One step: arrive at the instruction, evaluate its phis, read its operands and execute it. -/
def step (s : RunPoint V) : Option (Observation V × RunPoint V) :=
  match L.code[s.position]? with
  | none => none
  | some i =>
      match evaluatePhis (L.phis.filter (·.offset == i.offset)) s with
      | none => none
      | some s =>
          some (⟨i.offset, i.operands.map s.values⟩, L.execute I i (i.operands.map s.values) s)

/-- What can be seen of the first `n` steps. -/
def trace : Nat → RunPoint V → List (Observation V)
  | 0, _ => []
  | n + 1, s =>
      match L.step I s with
      | none => []
      | some (o, s) => o :: trace n s

/-- The point after `n` steps, if the run gets that far. -/
def after : Nat → RunPoint V → Option (RunPoint V)
  | 0, s => some s
  | n + 1, s => (L.step I s).bind fun r => after n r.2

end Listing

/-! ## One step -/

section Execute

variable {L : Listing τ} {I : Interpretation τ V} {i : Instruction τ} {operands : List V}
  {s : RunPoint V}

theorem values_execute_of_eq {x : Local} (h : i.destination? = some x) :
    (L.execute I i operands s).values x = I.value i.tag operands := by
  unfold Listing.execute
  rw [h]
  exact Function.update_self ..

theorem values_execute_of_ne {x : Local} (h : i.destination? ≠ some x) :
    (L.execute I i operands s).values x = s.values x := by
  unfold Listing.execute
  cases hd : i.destination? with
  | none => rfl
  | some y =>
      refine Function.update_of_ne ?_ ..
      rintro rfl
      exact h hd

end Execute

/-- Phis are evaluated without interfering, if none writes what another one reads. -/
theorem evaluatePhis_eq_some (want : Phi → V) {φs : List Phi} {t : RunPoint V}
    (hsource : ∀ φ ∈ φs, ∃ y, φ.latest? t.executed = some y ∧ t.values y = want φ ∧
      y ∉ φs.map (·.result))
    (hnodup : (φs.map (·.result)).Nodup) :
    ∃ t', evaluatePhis φs t = some t' ∧ t'.position = t.position ∧ t'.executed = t.executed ∧
      (∀ y, y ∉ φs.map (·.result) → t'.values y = t.values y) ∧
      ∀ φ ∈ φs, t'.values φ.result = want φ := by
  induction φs generalizing t with
  | nil => exact ⟨t, rfl, rfl, rfl, fun _ _ => rfl, fun φ hφ => absurd hφ List.not_mem_nil⟩
  | cons φ φs ih =>
      obtain ⟨y, hlatest, hy, hyr⟩ := hsource φ List.mem_cons_self
      rw [List.map_cons, List.nodup_cons] at hnodup
      rw [evaluatePhis, hlatest]
      obtain ⟨t', ht', hpos, hexec, hframe, hvalues⟩ :=
        ih (t := { t with values := Function.update t.values φ.result (t.values y) })
          (fun ψ hψ => by
            obtain ⟨z, hz, hzw, hzr⟩ := hsource ψ (List.mem_cons_of_mem φ hψ)
            rw [List.map_cons, List.mem_cons, not_or] at hzr
            exact ⟨z, hz, (Function.update_of_ne hzr.1 ..).trans hzw, hzr.2⟩) hnodup.2
      refine ⟨t', ht', hpos, hexec, fun z hz => ?_, fun ψ hψ => ?_⟩
      · rw [List.map_cons, List.mem_cons, not_or] at hz
        exact (hframe z hz.2).trans (Function.update_of_ne hz.1 ..)
      · rcases List.mem_cons.1 hψ with rfl | hψ
        · rw [hframe _ hnodup.1]
          exact (Function.update_self ..).trans hy
        · exact hvalues ψ hψ

/-! ## Runs of a program -/

/-- Control goes from a position to one that can follow. -/
theorem Program.canFollow_next {p : Program τ} {I : Interpretation τ V} {i : Instruction τ}
    {operands : List V} {k : Nat} (hi : p.at? k = some i)
    (hlt : p.listing.next I i operands k < p.size) :
    p.CanFollow k (p.listing.next I i operands k) := by
  have hat : ∀ m < p.size, ∃ j, p.at? m = some j :=
    fun m hm => ⟨p.instructions[m], Array.getElem?_eq_getElem hm⟩
  obtain ⟨j, hj⟩ := hat _ hlt
  refine ⟨i, j, hi, hj, ?_⟩
  unfold Listing.next at hlt hj ⊢
  cases hb : i.branch? with
  | none =>
      refine .inl ⟨rfl, i.fallsThrough_of_not_isBranch ?_⟩
      rw [Instruction.isBranch, hb]
      rfl
  | some branch =>
      obtain ⟨conditional, target⟩ := branch
      simp only [hb] at hlt hj ⊢
      split
      · rename_i hfalls
        refine .inl ⟨rfl, i.fallsThrough_iff.2 fun t ht => ?_⟩
        rw [hb] at ht
        cases ht
        cases hfalls
      · rename_i hjumps
        rw [if_neg hjumps] at hlt hj
        refine .inr ⟨conditional, ?_⟩
        cases hm : p.listing.code.findIdx? (·.offset == target) with
        | none =>
            rw [hm] at hlt
            exact absurd hlt (Nat.lt_irrefl _)
        | some m =>
            rw [hm] at hj
            obtain ⟨hlen, hoffset, -⟩ := List.findIdx?_eq_some_iff_getElem.1 hm
            have hjm : p.listing.code[m] = j := by
              refine Option.some.inj ((List.getElem?_eq_getElem hlen).symm.trans ?_)
              rw [Program.listing, Array.getElem?_toList]
              exact hj
            rw [hjm, beq_iff_eq] at hoffset
            rw [hoffset]

end SingleAssignment
