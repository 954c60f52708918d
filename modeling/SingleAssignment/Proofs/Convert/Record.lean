import Mathlib
import SingleAssignment.Proofs.Convert.Placement

/-!
# What a recorder keeps of a conversion

A recorder sorts the events into instructions, phis and origins of fresh locals.  For a successful
conversion all three are read off the emissions.

* `Conversion.recorded` — a new recorder after all events of a conversion.
* `Recorder.unaliases` — fresh locals and what they stand for, in the order of the events.
* `Converted` — **everything that the results of this library need to know about a successful
  conversion**: its emissions render the program, its events are those of the emissions behind the
  destinations, and all its fresh locals come from one supply.
-/

namespace SingleAssignment

variable {τ : Type}

/-- A new recorder after all events of a conversion. -/
def Conversion.recorded (c : Conversion τ) : Recorder τ :=
  Sink.recorder.receiveAll .empty c.events

@[simp] theorem Conversion.events_recorded (c : Conversion τ) : c.recorded.events = c.events := by
  rw [recorded, Sink.events_receiveAll_recorder]
  simp [Recorder.empty]

/-- The instruction of an event. -/
def Event.instruction? : Event τ → Option (Instruction τ)
  | .instruction i => some i
  | _ => none

/-- The phi of an event. -/
def Event.phi? : Event τ → Option Phi
  | .phi φ => some φ
  | _ => none

/-- The fresh local of an event and what it stands for. -/
def Event.unalias? : Event τ → Option (Local × Local)
  | .unalias fresh origin => some (fresh, origin)
  | _ => none

namespace Recorder

/-- Fresh locals and what they stand for, in the order of the events. -/
def unaliases (r : Recorder τ) : List (Local × Local) := r.events.toList.filterMap Event.unalias?

theorem instructions_eq (r : Recorder τ) :
    r.instructions = r.events.toList.filterMap Event.instruction? := rfl

theorem phis_eq (r : Recorder τ) : r.phis = r.events.toList.filterMap Event.phi? := rfl

theorem origins_eq (r : Recorder τ) :
    r.origins = r.unaliases.foldl (fun m u => m.insert u.1 u.2) ∅ := by
  unfold origins unaliases
  rw [← Array.foldl_toList]
  generalize r.events.toList = events, (∅ : LocalMap) = m
  induction events generalizing m with
  | nil => rfl
  | cons e events ih =>
      rw [List.foldl_cons, ih]
      cases e <;> rfl

end Recorder

section Insert

variable {κ ν : Type} [Ord κ] [Std.TransOrd κ] [Std.LawfulEqOrd κ] {us : List (κ × ν)} {x : κ}

theorem getElem?_foldl_insert_of_not_mem (m : Std.TreeMap κ ν) (hx : x ∉ us.map (·.1)) :
    (us.foldl (fun m u => m.insert u.1 u.2) m)[x]? = m[x]? := by
  induction us generalizing m with
  | nil => rfl
  | cons u us ih =>
      rw [List.map_cons, List.mem_cons, not_or] at hx
      rw [List.foldl_cons, ih _ hx.2, Std.TreeMap.getElem?_insert,
        if_neg fun he => hx.1 (Std.LawfulEqOrd.eq_of_compare he).symm]

theorem getElem?_foldl_insert_of_mem {y : ν} (m : Std.TreeMap κ ν) (hnd : (us.map (·.1)).Nodup)
    (hu : (x, y) ∈ us) : (us.foldl (fun m u => m.insert u.1 u.2) m)[x]? = some y := by
  induction us generalizing m with
  | nil => cases hu
  | cons u us ih =>
      rw [List.map_cons, List.nodup_cons] at hnd
      rw [List.foldl_cons]
      rcases List.mem_cons.1 hu with rfl | hu
      · rw [getElem?_foldl_insert_of_not_mem _ hnd.1]
        simp
      · exact ih _ hnd.2 hu

end Insert

/-! ## Events of emissions -/

theorem filterMap_events {β : Type} (f : Event τ → Option β) (es : List (Emission τ)) :
    (es.flatMap Emission.events).filterMap f = es.flatMap fun e =>
      (e.phis.flatMap fun φ => (Phi.events φ).filterMap f) ++
        [Event.instruction e.instruction].filterMap f := by
  rw [List.filterMap_flatMap]
  refine List.flatMap_congr fun e _ => ?_
  rw [Emission.events, List.filterMap_append, List.filterMap_flatMap]

theorem filterMap_instruction?_events (es : List (Emission τ)) :
    (es.flatMap Emission.events).filterMap Event.instruction? = emittedInstructions es := by
  have hphi : ∀ φ : Phi, (Phi.events φ).filterMap (Event.instruction? (τ := τ)) = [] :=
    fun _ => rfl
  rw [filterMap_events, emittedInstructions, List.map_eq_flatMap]
  refine List.flatMap_congr fun e _ => ?_
  simp [hphi, Event.instruction?]

theorem filterMap_phi?_events (es : List (Emission τ)) :
    (es.flatMap Emission.events).filterMap Event.phi? = es.flatMap Emission.phis := by
  have hphi : ∀ φ : Phi, (Phi.events φ).filterMap (Event.phi? (τ := τ)) = [φ] := fun _ => rfl
  rw [filterMap_events]
  refine List.flatMap_congr fun e _ => ?_
  simp [hphi, Event.phi?]

theorem filterMap_unalias?_events (es : List (Emission τ)) :
    (es.flatMap Emission.events).filterMap Event.unalias? =
      (es.flatMap Emission.phis).map fun φ => (φ.result, φ.origin) := by
  have hphi : ∀ φ : Phi, (Phi.events φ).filterMap (Event.unalias? (τ := τ)) =
      [(φ.result, φ.origin)] := fun _ => rfl
  rw [filterMap_events, List.map_flatMap]
  refine List.flatMap_congr fun e _ => ?_
  simp [hphi, Event.unalias?, List.map_eq_flatMap]

/-! ## Successful conversions -/

/-- The emissions `es` of a program with the flow graph `g` are what the recorder keeps. -/
structure Converted (p : Program τ) (g : FlowGraph τ) (es : List (Emission τ)) (r : Recorder τ) :
    Prop where
  built : FlowGraph.ofProgram p = .ok g
  rendering : Rendering p g es
  placement : Placement p es
  events : r.events.toList = ((destinations (emittedInstructions es)).zip
    (destinations p.instructions.toList)).map (fun d => .unalias d.1 d.2) ++
      es.flatMap Emission.events
  minted : ∃ s, (Supply.ofUsed p.locals).Mints
    (destinations (emittedInstructions es) ++ (es.flatMap Emission.phis).map (·.result)) s

/-- **A successful conversion is recorded by its emissions.** -/
theorem convert_converted {config : Config} {schedule : Schedule} {p : Program τ} {stats : Stats}
    (h : (convert config schedule p).outcome = .ok stats) :
    ∃ g es, Converted p g es (convert config schedule p).recorded := by
  obtain ⟨g, g', ds, parts, hstream⟩ := convert_ok h
  have hdest := hstream.destinations_emitted
  have hzip := List.zip_of_prod hdest.symm hstream.origins
  have hresults : parts.flatten.flatMap Emission.results =
      (parts.flatten.flatMap Emission.phis).map (·.result) := by
    rw [List.map_flatMap]
    rfl
  refine ⟨g, parts.flatten, hstream.built, hstream.rendering, hstream.placement, ?_, ?_⟩
  · rw [Conversion.events_recorded, hstream.events, ← hzip]
  · rw [hdest, ← hresults]
    exact hstream.minted

namespace Converted

variable {p : Program τ} {g : FlowGraph τ} {es : List (Emission τ)} {r : Recorder τ}

/-- No event about a destination is kept by a filter that skips such events. -/
theorem filterMap_eq (h : Converted p g es r) {β : Type} (f : Event τ → Option β)
    (hf : ∀ x y, f (.unalias x y) = none) :
    r.events.toList.filterMap f = (es.flatMap Emission.events).filterMap f := by
  rw [h.events, List.filterMap_append, List.filterMap_map,
    List.filterMap_eq_nil_iff.2 fun d _ => hf d.1 d.2, List.nil_append]

theorem instructions (h : Converted p g es r) : r.instructions = emittedInstructions es := by
  rw [Recorder.instructions_eq, h.filterMap_eq _ fun _ _ => rfl, filterMap_instruction?_events]

theorem phis (h : Converted p g es r) : r.phis = es.flatMap Emission.phis := by
  rw [Recorder.phis_eq, h.filterMap_eq _ fun _ _ => rfl, filterMap_phi?_events]

theorem unaliases (h : Converted p g es r) :
    r.unaliases =
      (destinations (emittedInstructions es)).zip (destinations p.instructions.toList) ++
        (es.flatMap Emission.phis).map fun φ => (φ.result, φ.origin) := by
  rw [Recorder.unaliases, h.events, List.filterMap_append, filterMap_unalias?_events,
    List.filterMap_map]
  congr 1
  exact List.filterMap_some

/-- Offsets tell positions apart. -/
theorem offset_injective (h : Converted p g es r) {k k' : Nat} {i i' : Instruction τ}
    (hi : p.at? k = some i) (hi' : p.at? k' = some i') (ho : i.offset = i'.offset) : k = k' := by
  refine (FlowGraph.build_laid h.built).position_unique (i := i) (j := i') ?_ ?_ ho
  · rw [Array.getElem?_toList]
    exact hi
  · rw [Array.getElem?_toList]
    exact hi'

theorem destinationAt_injective (h : Converted p g es r) {k k' : Nat} {x : Local}
    (hk : destinationAt (emittedInstructions es) k = some x)
    (hk' : destinationAt (emittedInstructions es) k' = some x) : k = k' := by
  obtain ⟨s, hminted⟩ := h.minted
  exact eq_of_destinationAt_eq (List.nodup_append.1 hminted.nodup).1 hk hk'

/-- Contributors of different definitions have different names. -/
theorem nodup_values (h : Converted p g es r) {k : Nat} {x : Local} {cs : List Contributor}
    (hm : MergedAt p g es k x cs) : (cs.map (·.value)).Nodup := by
  obtain ⟨ds, hnodup, -, hnames⟩ := hm.names
  refine List.Nodup.of_map some ?_
  rw [List.map_map, Function.comp_def, ← hnames]
  refine hnodup.map_on fun d hd d' _ he => ?_
  have hd := List.mem_map_of_mem (f := destinationAt (emittedInstructions es)) hd
  rw [hnames] at hd
  obtain ⟨c, -, hc⟩ := List.mem_map.1 hd
  exact h.destinationAt_injective hc.symm (he ▸ hc.symm)

end Converted

/-! ## A program to look at -/

/-- Set local 5, then change it in a loop: at the first read of the loop two definitions meet. -/
def countingLoop : Program Unit :=
  .ofList [⟨0, (), [], .assign ⟨5⟩⟩, ⟨1, (), [⟨5⟩, ⟨1⟩], .assign ⟨5⟩⟩,
    ⟨2, (), [⟨5⟩], .branch true 1⟩]

theorem convert_countingLoop :
    (convert {} .sequential countingLoop).outcome = .ok
      { blocks := 2, reachedBlocks := 2, definitions := 2, phis := 1, unresolvedImports := 1,
        assignments := 2, branches := 1 } := by
  cbv

end SingleAssignment
