import SingleAssignment.Proofs.Convert.Record
import SingleAssignment.Proofs.Convert.Relabeling

/-!
# Offsets are names

Which number an offset is does not matter to a conversion, as long as different offsets stay
different: blocks are cut and linked, locals are minted and phis are placed in the same way.
-/

namespace SingleAssignment

variable {τ : Type}

/-- **Offsets are only names.**  Let `r` keep the offsets and branch targets of a program apart.  The
program with its offsets mapped by `r` converts iff the program does, with the same statistics, or
it fails with the same fault, whose offsets are mapped.  In both cases the events are the same, with
`r` applied to the offsets and targets of instructions, the offsets of phis and the predecessors of
their contributors; no local changes. -/
theorem convert_mapOffsets (config : Config) (schedule : Schedule) (p : Program τ)
    {r : Offset → Offset} (hr : Set.InjOn r p.offsets) :
    (convert config schedule (p.mapOffsets r)).outcome =
        (convert config schedule p).outcome.mapError (Fault.mapOffsets r) ∧
      (convert config schedule (p.mapOffsets r)).events =
        (convert config schedule p).events.map (Event.mapOffsets r) :=
  convert_relabeled rfl schedule schedule hr

/-- The counting loop with its offsets in descending order: the phi at the second instruction and
its contributors quote the new offsets, and the locals stay. -/
theorem countingLoop_mapOffsets :
    Set.InjOn (9 - ·) countingLoop.offsets ∧
    (convert {} .sequential (countingLoop.mapOffsets (9 - ·))).outcome =
      (convert {} .sequential countingLoop).outcome ∧
    (convert {} .sequential (countingLoop.mapOffsets (9 - ·))).recorded.phis =
      [⟨8, ⟨4⟩, ⟨5⟩, [⟨⟨2⟩, 9⟩, ⟨⟨3⟩, 8⟩]⟩] := by
  have hr : Set.InjOn (fun o : Offset => 9 - o) countingLoop.offsets :=
    fun o _ o' _ heq => by simpa using heq
  obtain ⟨hout, hevents⟩ := convert_mapOffsets {} .sequential countingLoop hr
  refine ⟨hr, ?_, ?_⟩
  · rw [hout, convert_countingLoop]
    rfl
  · rw [Recorder.phis_eq, Conversion.events_recorded, hevents]
    cbv

end SingleAssignment
