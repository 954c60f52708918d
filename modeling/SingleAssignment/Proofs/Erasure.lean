import SingleAssignment.Proofs.Freshness
import SingleAssignment.Proofs.Substitution

/-!
# Erasing fresh locals

The origins kept by a recorder undo a conversion: with every fresh local replaced by what it stands
for, the emitted instructions are those of the program.

An operand has come by one of several ways (the name of an assignment in the same block, the only
definition that reaches, a phi, or no definition at all).  `Converted.erase_read` takes all of them
back to the local that was read.
-/

namespace SingleAssignment

variable {τ : Type}

/-- What a local stands for, itself if it is not fresh. -/
def Recorder.erase (r : Recorder τ) (x : Local) : Local := (r.origins[x]?).getD x

namespace Converted

variable {p : Program τ} {g : FlowGraph τ} {es : List (Emission τ)} {r : Recorder τ}

theorem nodup_unaliases (h : Converted p g es r) : (r.unaliases.map (·.1)).Nodup := by
  obtain ⟨s, hminted⟩ := h.mints_defined
  rw [← h.defined_eq]
  exact hminted.nodup

theorem erase_of_mem (h : Converted p g es r) {x y : Local} (hu : (y, x) ∈ r.unaliases) :
    r.erase y = x := by
  rw [Recorder.erase, Recorder.origins_eq, getElem?_foldl_insert_of_mem _ h.nodup_unaliases hu]
  rfl

/-- A local of the program is not fresh. -/
theorem erase_of_mem_locals (h : Converted p g es r) {x : Local} (hx : x ∈ p.locals) :
    r.erase x = x := by
  have hnot : x ∉ r.unaliases.map (·.1) := by
    obtain ⟨s, hminted⟩ := h.mints_defined
    rw [← h.defined_eq]
    exact fun hin => hminted.not_mem hin hx
  rw [Recorder.erase, Recorder.origins_eq, getElem?_foldl_insert_of_not_mem _ hnot]
  simp

theorem erase_destination (h : Converted p g es r) {k : Nat} {x y : Local} (hx : p.Assigns x k)
    (hy : destinationAt (emittedInstructions es) k = some y) : r.erase y = x := by
  apply h.erase_of_mem
  obtain ⟨i, hi, hx⟩ := hx
  rw [← destinationAt_program hi] at hx
  rw [h.unaliases]
  exact List.mem_append_left _ (mem_zip_destinations h.rendering.assigning hx hy)

theorem erase_phi (h : Converted p g es r) {k : Nat} {e : Emission τ} {φ : Phi}
    (he : es[k]? = some e) (hφ : φ ∈ e.phis) : r.erase φ.result = φ.origin := by
  apply h.erase_of_mem
  rw [h.unaliases]
  exact List.mem_append_right _ (List.mem_map.2 ⟨φ, mem_phis he hφ, rfl⟩)

/-- Whatever a read has become, erasing gives back the local that was read. -/
theorem erase_read (h : Converted p g es r) {k : Nat} {x y : Local} (hx : x ∈ p.locals)
    (hread : ReadAt p g es k x y) : r.erase y = x := by
  cases hread with
  | unresolved _ => exact h.erase_of_mem_locals hx
  | @single d y hone hy => exact h.erase_destination ((hone d).2 rfl).1 hy
  | merged _ he hφ ho _ _ _ =>
      rw [h.erase_phi he hφ]
      exact ho

theorem erase_operands (h : Converted p g es r) {k : Nat} {i : Instruction τ} {e : Emission τ}
    (hi : p.at? k = some i) (he : es[k]? = some e) :
    e.instruction.operands.map r.erase = i.operands := by
  have hlocals : ∀ x ∈ i.operands, x ∈ p.locals :=
    fun x hx => Program.mem_locals_of_operand hi hx
  have hreads := (List.forall₂_and_left _ _).2 ⟨hlocals, h.rendering.operands hi he⟩
  symm
  rw [← List.forall₂_eq_eq_eq, List.forall₂_map_right_iff]
  exact hreads.imp fun x y hxy => (h.erase_read hxy.1 hxy.2).symm

theorem erase_action (h : Converted p g es r) {k : Nat} {i : Instruction τ} {e : Emission τ}
    (hi : p.at? k = some i) (he : es[k]? = some e) :
    e.instruction.action.mapDestination r.erase = i.action := by
  have hsame := (h.rendering.kept hi he).2.2
  cases ha : i.action with
  | assign x =>
      cases hu : e.instruction.action with
      | assign y =>
          have hx : p.Assigns x k := ⟨i, hi, by rw [Instruction.destination?, ha]⟩
          have hy : destinationAt (emittedInstructions es) k = some y := by
            rw [destinationAt_emission he, Instruction.destination?, hu]
          rw [Action.mapDestination, h.erase_destination hx hy]
      | effect => simp [ha, hu, Action.SameUpToDestination] at hsame
      | branch c t => simp [ha, hu, Action.SameUpToDestination] at hsame
  | effect =>
      rw [ha] at hsame
      rw [← show Action.effect = e.instruction.action from hsame]
      rfl
  | branch c t =>
      rw [ha] at hsame
      rw [← show Action.branch c t = e.instruction.action from hsame]
      rfl

end Converted

/-- **Erasing the fresh locals gives back the program.** -/
theorem convert_erased {config : Config} {schedule : Schedule} {p : Program τ} {stats : Stats}
    (h : (convert config schedule p).outcome = .ok stats) :
    (convert config schedule p).recorded.instructions.map
      (Instruction.mapLocals (convert config schedule p).recorded.erase) =
        p.instructions.toList := by
  obtain ⟨g, es, hc⟩ := convert_converted h
  rw [hc.instructions, emittedInstructions, List.map_map]
  refine List.ext_getElem ?_ fun k hk hk' => ?_
  · rw [List.length_map, hc.rendering.length, Array.length_toList]
    rfl
  · have hke : k < es.length := by rwa [List.length_map] at hk
    have hi : p.at? k = some p.instructions.toList[k] := by
      rw [Program.at?, ← Array.getElem?_toList]
      exact List.getElem?_eq_getElem hk'
    have he : es[k]? = some es[k] := List.getElem?_eq_getElem hke
    obtain ⟨ho, ht, -⟩ := hc.rendering.kept hi he
    rw [List.getElem_map, Function.comp_apply, Instruction.mapLocals, ho, ht,
      hc.erase_operands hi he, hc.erase_action hi he]

/-- The counting loop and its converted form, which reads a phi, a definition of the same block and
a local that is never assigned. -/
theorem countingLoop_erased :
    (convert {} .sequential countingLoop).recorded.instructions =
      [⟨0, (), [], .assign ⟨2⟩⟩, ⟨1, (), [⟨4⟩, ⟨1⟩], .assign ⟨3⟩⟩, ⟨2, (), [⟨3⟩], .branch true 1⟩] ∧
    (convert {} .sequential countingLoop).recorded.instructions.map
      (Instruction.mapLocals (convert {} .sequential countingLoop).recorded.erase) =
        countingLoop.instructions.toList :=
  ⟨by cbv, convert_erased convert_countingLoop⟩

end SingleAssignment
