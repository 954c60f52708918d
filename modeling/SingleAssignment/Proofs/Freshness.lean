import SingleAssignment.Proofs.Convert.Record

/-!
# Fresh locals and single assignment

Destinations and phis of a conversion have locals of their own.  They are the locals that the
program does not mention, taken in ascending order: first one for each assignment, then one for each
phi.
-/

namespace SingleAssignment

variable {τ : Type}

/-- No instruction of the program writes or reads `x`. -/
def Program.Unmentioned (p : Program τ) (x : Local) : Prop :=
  ∀ i ∈ p.instructions, i.destination? ≠ some x ∧ x ∉ i.operands

theorem Program.unmentioned_iff {p : Program τ} {x : Local} :
    p.Unmentioned x ↔ x ∉ p.locals := by
  unfold Unmentioned
  rw [mem_locals, not_exists]
  refine forall_congr' fun i => ?_
  rw [not_and, Array.mem_toList_iff, Instruction.locals, List.mem_append, not_or,
    Option.mem_toList]

theorem Program.free_locals_iff {p : Program τ} {n : Nat} :
    Supply.Free p.locals n ↔ 1 ≤ n ∧ ∃ x : Local, x.index.toNat = n ∧ p.Unmentioned x := by
  constructor
  · rintro ⟨hpos, hlt, hfree⟩
    exact ⟨hpos, ⟨UInt32.ofNat n⟩, UInt32.toNat_ofNat_of_lt hlt, unmentioned_iff.2 hfree⟩
  · rintro ⟨hpos, x, rfl, hx⟩
    exact Supply.free_toNat.2 ⟨hpos, unmentioned_iff.1 hx⟩

/-- Every local that the recorded instructions and phis define. -/
def Recorder.defined (r : Recorder τ) : List Local :=
  destinations r.instructions ++ r.phis.map (·.result)

namespace Converted

variable {p : Program τ} {g : FlowGraph τ} {es : List (Emission τ)} {r : Recorder τ}

/-- Each defined local is reported once, in the order of the events. -/
theorem defined_eq (h : Converted p g es r) : r.defined = r.unaliases.map (·.1) := by
  have hlen := length_destinations h.rendering.assigning
  rw [h.unaliases, List.map_append, List.map_fst_zip (Nat.le_of_eq hlen), List.map_map,
    Recorder.defined, h.instructions, h.phis]
  rfl

theorem mints_defined (h : Converted p g es r) :
    ∃ s, (Supply.ofUsed p.locals).Mints r.defined s := by
  rw [Recorder.defined, h.instructions, h.phis]
  exact h.minted

theorem destination_not_local (h : Converted p g es r) {d : Nat} {y : Local}
    (hy : destinationAt (emittedInstructions es) d = some y) : y ∉ p.locals := by
  obtain ⟨s, hminted⟩ := h.minted
  exact hminted.not_mem (List.mem_append_left _ (mem_destinations hy))

theorem result_not_local (h : Converted p g es r) {φ : Phi} (hφ : φ ∈ es.flatMap Emission.phis) :
    φ.result ∉ p.locals := by
  obtain ⟨s, hminted⟩ := h.minted
  exact hminted.not_mem (List.mem_append_right _ (List.mem_map_of_mem hφ))

theorem destination_ne_result (h : Converted p g es r) {d : Nat} {y : Local} {φ : Phi}
    (hy : destinationAt (emittedInstructions es) d = some y)
    (hφ : φ ∈ es.flatMap Emission.phis) : y ≠ φ.result := by
  obtain ⟨s, hminted⟩ := h.minted
  exact (List.nodup_append.1 hminted.nodup).2.2 _ (mem_destinations hy) _ (List.mem_map_of_mem hφ)

theorem nodup_results (h : Converted p g es r) :
    (∀ e ∈ es, (e.phis.map (·.result)).Nodup) ∧
      es.Pairwise fun e e' => ∀ φ ∈ e.phis, ∀ φ' ∈ e'.phis, φ.result ≠ φ'.result := by
  obtain ⟨s, hminted⟩ := h.minted
  have hnodup := (List.nodup_append.1 hminted.nodup).2.1
  rw [List.map_flatMap, List.nodup_flatMap] at hnodup
  refine ⟨hnodup.1, hnodup.2.imp ?_⟩
  intro e e' hdisjoint φ hφ φ' hφ' heq
  refine hdisjoint (List.mem_map_of_mem hφ) ?_
  show φ.result ∈ e'.phis.map (·.result)
  rw [heq]
  exact List.mem_map_of_mem hφ'

/-- Phis at different positions have different results. -/
theorem result_ne_of_lt (h : Converted p g es r) {w k : Nat} {e e' : Emission τ} {φ φ' : Phi}
    (hwk : w < k) (he : es[w]? = some e) (he' : es[k]? = some e') (hφ : φ ∈ e.phis)
    (hφ' : φ' ∈ e'.phis) : φ.result ≠ φ'.result := by
  obtain ⟨hw, rfl⟩ := List.getElem?_eq_some_iff.1 he
  obtain ⟨hk, rfl⟩ := List.getElem?_eq_some_iff.1 he'
  exact List.pairwise_iff_getElem.1 h.nodup_results.2 w k hw hk hwk φ hφ φ' hφ'

end Converted

/-- **Freshness and single assignment.**  The destinations of the emitted instructions and the
results of the phis are pairwise distinct and not mentioned in the program.  They are the locals
that the events introduce: the event at place `k` introduces the `k`-th smallest number from 1 on
that the program does not mention. -/
theorem convert_defines_fresh_locals {config : Config} {schedule : Schedule} {p : Program τ}
    {stats : Stats} (h : (convert config schedule p).outcome = .ok stats) :
    (convert config schedule p).recorded.defined.Nodup ∧
      (∀ x ∈ (convert config schedule p).recorded.defined, p.Unmentioned x) ∧
      (convert config schedule p).recorded.defined.Perm
        ((convert config schedule p).recorded.unaliases.map (·.1)) ∧
      (∀ (k : Nat) (u : Local × Local),
        (convert config schedule p).recorded.unaliases[k]? = some u → 1 ≤ u.1.index.toNat ∧
          u.1.index.toNat =
            Nat.nth (fun n => 1 ≤ n ∧ ∃ x : Local, x.index.toNat = n ∧ p.Unmentioned x) k) ∧
      (convert config schedule p).recorded.unaliases.Pairwise
        fun u v => u.1.index < v.1.index := by
  obtain ⟨g, es, hc⟩ := convert_converted h
  obtain ⟨s, hminted⟩ := hc.mints_defined
  refine ⟨hminted.nodup, fun x hx => Program.unmentioned_iff.2 (hminted.not_mem hx),
    .of_eq hc.defined_eq, fun k u hu => ?_, ?_⟩
  · have hx : (convert config schedule p).recorded.defined[k]? = some u.1 := by
      rw [hc.defined_eq, List.getElem?_map, hu]
      rfl
    have hnth := hminted.eq_nth hx
    rw [show Supply.Free p.locals = _ from funext fun n => propext Program.free_locals_iff] at hnth
    exact ⟨(hminted.count_eq (Supply.handedOut_ofUsed _) hx).1.1, hnth⟩
  · have hincreasing := hminted.increasing
    rw [hc.defined_eq, List.pairwise_map] at hincreasing
    exact hincreasing

/-- The counting loop mentions 1 and 5, so its events introduce 2, 3 and 4. -/
theorem countingLoop_defines_fresh_locals :
    (convert {} .sequential countingLoop).recorded.defined = [⟨2⟩, ⟨3⟩, ⟨4⟩] ∧
      (∀ x ∈ (convert {} .sequential countingLoop).recorded.defined,
        countingLoop.Unmentioned x) ∧
      4 = Nat.nth
        (fun n => 1 ≤ n ∧ ∃ x : Local, x.index.toNat = n ∧ countingLoop.Unmentioned x) 2 := by
  obtain ⟨-, hunmentioned, -, hnth, -⟩ := convert_defines_fresh_locals convert_countingLoop
  refine ⟨by cbv, hunmentioned, (hnth 2 (⟨4⟩, ⟨5⟩) ?_).2⟩
  cbv

end SingleAssignment
