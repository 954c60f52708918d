import SingleAssignment.Proofs.Convert.Record

/-!
# The order of events

A successful conversion first reports what each new destination stands for.  Then it reports the
instructions in program order, and in front of an instruction a phi for each of its operands that
needs one, from left to right.

* `Phi.valueFrom?_eq` — a phi with distinct predecessors has one value for each of them.
* `Converted.phiAt` — each phi stands at an operand that needs it.
* `Converted.pairwise_phis` — no two phis are for the same local and block.
* `convert_events_in_order` — **the events of a successful conversion, one after the other.**
-/

namespace SingleAssignment

variable {τ : Type}

/-! ## Reading a phi -/

/-- Both ways to ask a phi for the value from a block agree if no block contributes twice. -/
theorem Phi.valueFrom?_eq {φ : Phi} (h : (φ.contributors.map (·.predecessor)).Nodup)
    (o : Offset) : φ.valueFrom? o = φ.sources[o]? := by
  have hsources : φ.sources = (φ.contributors.map fun c => (c.predecessor, c.value)).foldl
      (fun m u => m.insert u.1 u.2) ∅ := by
    rw [List.foldl_map]
    rfl
  have hkeys : ((φ.contributors.map fun c => (c.predecessor, c.value)).map (·.1)) =
      φ.contributors.map (·.predecessor) := by
    rw [List.map_map]
    rfl
  unfold valueFrom?
  rw [hsources]
  cases hfind : φ.contributors.find? (·.predecessor == o) with
  | none =>
      have hnone : o ∉ φ.contributors.map (·.predecessor) := by
        rintro hmem
        obtain ⟨c, hc, ho⟩ := List.mem_map.1 hmem
        exact absurd (beq_iff_eq.2 ho) (List.find?_eq_none.1 hfind c hc)
      rw [getElem?_foldl_insert_of_not_mem _ (by rwa [hkeys])]
      simp
  | some c =>
      have hc := List.mem_of_find?_eq_some hfind
      have ho : c.predecessor = o := by simpa using List.find?_some hfind
      rw [getElem?_foldl_insert_of_mem (y := c.value) _ (by rwa [hkeys])]
      · rfl
      · rw [← ho]
        exact List.mem_map.2 ⟨c, hc, rfl⟩

/-! ## Phis of a conversion -/

theorem FlowGraph.StartsAt.blockOffset {p : Program τ} {g : FlowGraph τ} {k : Nat} {o : Offset}
    (hlaid : g.Laid p.labels p.instructions.toList) (h : g.StartsAt k o) : p.BlockOffset k o := by
  obtain ⟨n, b, start, l, hp, hl, rfl, rfl⟩ := h
  exact hlaid.blockOffset hp hl

/-- Two phis are for the same local and stand in the same block. -/
def Program.SameMerge (p : Program τ) (φ ψ : Phi) : Prop :=
  φ.origin = ψ.origin ∧ ∃ s k k' i i', p.at? k = some i ∧ i.offset = φ.offset ∧
    p.at? k' = some i' ∧ i'.offset = ψ.offset ∧ p.InBlock s k ∧ p.InBlock s k'

namespace Converted

variable {p : Program τ} {g : FlowGraph τ} {es : List (Emission τ)} {r : Recorder τ} {k : Nat}
  {i : Instruction τ} {e : Emission τ}

/-- The phis in front of an instruction stand at operands that need them, from left to right. -/
theorem phiAt (h : Converted p g es r) (hi : p.at? k = some i) (he : es[k]? = some e) :
    ∃ js : List Nat, js.Pairwise (· < ·) ∧
      List.Forall₂ (fun j φ => p.PhiAt φ.origin k j) js e.phis := by
  obtain ⟨js, hsorted, hmem, hall⟩ := h.placement.positions hi he
  refine ⟨js, hsorted, ((List.forall₂_and_left _ _).2 ⟨fun j hj => (hmem j).1 hj, hall⟩).imp ?_⟩
  rintro j φ ⟨⟨x, hx⟩, hφ⟩
  obtain ⟨-, s, hexposed, -⟩ := id hx
  obtain ⟨i', hi', hxj⟩ := hexposed.reads
  rw [hi] at hi'
  cases hi'
  rw [hxj] at hφ
  rw [← Option.some.inj hφ]
  exact hx

theorem exists_position (h : Converted p g es r) (he : es[k]? = some e) :
    ∃ i, p.at? k = some i := by
  have hk := (List.getElem?_eq_some_iff.1 he).1
  rw [h.rendering.length] at hk
  exact ⟨_, Array.getElem?_eq_getElem hk⟩

/-- **No two phis are for the same local and block.** -/
theorem pairwise_phis (h : Converted p g es r) :
    r.phis.Pairwise fun φ ψ => ¬ p.SameMerge φ ψ := by
  -- two phis for one local and block would stand at the same operand
  have hsame : ∀ {k k' j j' : Nat} {e e' : Emission τ} {φ ψ : Phi}, es[k]? = some e →
      φ ∈ e.phis → es[k']? = some e' → ψ ∈ e'.phis → p.PhiAt φ.origin k j →
      p.PhiAt ψ.origin k' j' → p.SameMerge φ ψ → k = k' ∧ j = j' := by
    rintro k k' j j' e e' φ ψ he hφ he' hψ hj hj' ⟨ho, s, q, q', i, i', hi, hiφ, hi', hiψ, hq, hq'⟩
    obtain ⟨i₁, hi₁, ho₁, -⟩ := h.rendering.phis he hφ
    obtain ⟨i₂, hi₂, ho₂, -⟩ := h.rendering.phis he' hψ
    obtain rfl := h.offset_injective hi hi₁ (hiφ.trans ho₁)
    obtain rfl := h.offset_injective hi' hi₂ (hiψ.trans ho₂)
    rw [← ho] at hj'
    exact hj.unique hj' hq hq'
  rw [h.phis, List.pairwise_flatMap]
  constructor
  · intro e he
    obtain ⟨k, hk⟩ := List.mem_iff_getElem?.1 he
    obtain ⟨i, hi⟩ := h.exists_position hk
    obtain ⟨js, hsorted, hall⟩ := h.phiAt hi hk
    rw [List.pairwise_iff_getElem] at hsorted ⊢
    intro a b ha hb hab hsm
    have hlen := hall.length_eq
    have hja := hall.get (by omega) ha
    have hjb := hall.get (by omega) hb
    have heq := (hsame hk (List.getElem_mem ha) hk (List.getElem_mem hb) hja hjb hsm).2
    have hlt := hsorted a b (by omega) (by omega) hab
    simp only [List.get_eq_getElem] at heq
    omega
  · rw [List.pairwise_iff_getElem]
    intro a b ha hb hab φ hφ ψ hψ hsm
    have hea := List.getElem?_eq_getElem ha
    have heb := List.getElem?_eq_getElem hb
    have hphi : ∀ {k : Nat} {e : Emission τ} {φ : Phi}, es[k]? = some e → φ ∈ e.phis →
        ∃ j, p.PhiAt φ.origin k j := by
      intro k e φ he hφ
      obtain ⟨i, hi⟩ := h.exists_position he
      obtain ⟨js, -, hall⟩ := h.phiAt hi he
      obtain ⟨l, hl, rfl⟩ := List.getElem_of_mem hφ
      exact ⟨_, hall.get (by rw [hall.length_eq]; exact hl) hl⟩
    obtain ⟨j, hj⟩ := hphi hea hφ
    obtain ⟨j', hj'⟩ := hphi heb hψ
    exact absurd (hsame hea hφ heb hψ hj hj' hsm).1 (Nat.ne_of_lt hab)

end Converted

/-- **The events of a successful conversion.**  First comes one event for each assignment, with its
new and its old destination.  Then come the instructions in program order, each behind the phis of
its operands that need one, from left to right; a phi has the offset of the instruction, and its
contributors are the definitions that reach it.  No two phis are for the same local and block.  Each
has two contributors or more, whose predecessors and values are distinct, so it has one value for
each predecessor. -/
theorem convert_events_in_order {config : Config} {schedule : Schedule} {p : Program τ}
    {stats : Stats} (h : (convert config schedule p).outcome = .ok stats) :
    ∃ (ds : List (Local × Local)) (es : List (Emission τ)),
      (convert config schedule p).recorded.events.toList =
        ds.map (fun d => .unalias d.1 d.2) ++ es.flatMap Emission.events ∧
      ds.map (·.1) = destinations (convert config schedule p).recorded.instructions ∧
      ds.map (·.2) = destinations p.instructions.toList ∧
      es.map (·.instruction) = (convert config schedule p).recorded.instructions ∧
      es.length = p.size ∧
      (∀ k i e, p.at? k = some i → es[k]? = some e → e.instruction.offset = i.offset ∧
        ∃ js : List Nat, js.Pairwise (· < ·) ∧ (∀ j, j ∈ js ↔ ∃ x, p.PhiAt x k j) ∧
          List.Forall₂ (fun j φ => φ.offset = i.offset ∧ i.operands[j]? = some φ.origin ∧
            ∃ origins : List Nat, origins.Nodup ∧
              (∀ d, d ∈ origins ↔ p.ReachingDefinition φ.origin d k) ∧
              List.Forall₂ (fun d c =>
                destinationAt (convert config schedule p).recorded.instructions d =
                  some c.value ∧ p.BlockOffset d c.predecessor) origins φ.contributors)
            js e.phis) ∧
      (convert config schedule p).recorded.phis.Pairwise (fun φ ψ => ¬ p.SameMerge φ ψ) ∧
      ∀ φ ∈ (convert config schedule p).recorded.phis, 2 ≤ φ.contributors.length ∧
        (φ.contributors.map (·.predecessor)).Nodup ∧ (φ.contributors.map (·.value)).Nodup ∧
        ∀ o, φ.valueFrom? o = φ.sources[o]? := by
  obtain ⟨g, es, hc⟩ := convert_converted h
  have hlaid := FlowGraph.build_laid hc.built
  have hlen := length_destinations hc.rendering.assigning
  refine ⟨(destinations (emittedInstructions es)).zip (destinations p.instructions.toList), es,
    hc.events, ?_, ?_, hc.instructions.symm, hc.rendering.length, ?_, hc.pairwise_phis, ?_⟩
  · rw [hc.instructions, List.map_fst_zip (Nat.le_of_eq hlen)]
  · rw [List.map_snd_zip (Nat.le_of_eq hlen.symm)]
  · intro k i e hi he
    refine ⟨(hc.rendering.kept hi he).1, ?_⟩
    obtain ⟨js, hsorted, hmem, hall⟩ := hc.placement.positions hi he
    refine ⟨js, hsorted, hmem, ?_⟩
    have hphis : ∀ φ ∈ e.phis, φ.offset = i.offset ∧
        MergedAt p g es k φ.origin φ.contributors := by
      intro φ hφ
      obtain ⟨i', hi', ho, -, hmerged, -⟩ := hc.rendering.phis he hφ
      rw [hi] at hi'
      cases hi'
      exact ⟨ho, hmerged⟩
    refine (((List.forall₂_and_left _ _).2 ⟨hphis, hall.flip⟩).imp ?_).flip
    rintro φ j ⟨⟨ho, origins, hnodup, hreach, hnames⟩, hj⟩
    rw [hc.instructions]
    exact ⟨ho, hj, origins, hnodup, hreach,
      hnames.imp fun d c hdc => ⟨hdc.1, hdc.2.blockOffset hlaid⟩⟩
  · intro φ hφ
    rw [hc.phis] at hφ
    obtain ⟨e, hmem, hφ⟩ := List.mem_flatMap.1 hφ
    obtain ⟨k, he⟩ := List.mem_iff_getElem?.1 hmem
    obtain ⟨i, -, -, -, hmerged, hlen⟩ := hc.rendering.phis he hφ
    have hnodup := hc.placement.predecessors he hφ
    exact ⟨hlen, hnodup, hc.nodup_values hmerged, φ.valueFrom?_eq hnodup⟩

/-- The first read of local 5 in the loop needs a phi. -/
theorem countingLoop_phiAt : countingLoop.PhiAt ⟨5⟩ 1 0 := by
  have hfirst : countingLoop.ReachingDefinition ⟨5⟩ 0 1 :=
    ⟨by decide, .step ⟨_, _, rfl, rfl, .inl ⟨rfl, rfl⟩⟩⟩
  have hback : countingLoop.ReachingDefinition ⟨5⟩ 1 1 :=
    ⟨by decide, .tail (.step ⟨_, _, rfl, rfl, .inl ⟨rfl, rfl⟩⟩) (by decide)
      ⟨_, _, rfl, rfl, .inr ⟨true, rfl⟩⟩⟩
  have hlabel : (1 : Offset) ∈ countingLoop.labels :=
    Program.mem_labels.2 ⟨⟨2, (), [⟨5⟩], .branch true 1⟩, by simp [countingLoop, Program.ofList],
      true, rfl⟩
  refine ⟨⟨0, 1, by decide, hfirst, hback⟩, 1, ⟨⟨?_, Nat.le_refl 1, by decide, ?_⟩, ?_, ?_⟩, ?_⟩
  · exact ⟨⟨1, (), [⟨5⟩, ⟨1⟩], .assign ⟨5⟩⟩, rfl, .inr (.inr hlabel)⟩
  · intro q hq hq'
    omega
  · exact ⟨_, rfl, rfl⟩
  · intro q hq hq'
    omega
  · intro k j hbefore hx
    have := hx.inBlock.le
    omega

/-- In the counting loop the phi for local 5 is reported right before the instruction that first
reads it in the loop. -/
theorem countingLoop_events_in_order :
    (∃ stats, (convert {} .sequential countingLoop).outcome = .ok stats) ∧
    ∃ (ds : List (Local × Local)) (es : List (Emission Unit)) (e : Emission Unit) (φ : Phi),
      (convert {} .sequential countingLoop).recorded.events.toList =
        ds.map (fun d => .unalias d.1 d.2) ++ es.flatMap Emission.events ∧
      ds.map (·.2) = [⟨5⟩, ⟨5⟩] ∧ es.length = 3 ∧ es[1]? = some e ∧ φ ∈ e.phis ∧
      φ.offset = 1 ∧ φ.origin = ⟨5⟩ := by
  refine ⟨⟨_, convert_countingLoop⟩, ?_⟩
  obtain ⟨ds, es, hevents, -, horigins, -, hlen, hphis, -, -⟩ :=
    convert_events_in_order convert_countingLoop
  have hsize : countingLoop.size = 3 := rfl
  rw [hsize] at hlen
  have hone : es[1]? = some es[1] := List.getElem?_eq_getElem (by omega)
  obtain ⟨-, js, -, hmem, hall⟩ := hphis 1 _ _ rfl hone
  obtain ⟨l, hl, hzero⟩ := List.getElem_of_mem ((hmem 0).2 ⟨⟨5⟩, countingLoop_phiAt⟩)
  have hl' : l < es[1].phis.length := by
    rw [← hall.length_eq]
    exact hl
  obtain ⟨ho, horigin, -⟩ := hall.get hl hl'
  simp only [List.get_eq_getElem, hzero] at ho horigin
  exact ⟨ds, es, es[1], es[1].phis[l], hevents, horigins, hlen, hone, List.getElem_mem hl', ho,
    (Option.some.inj horigin).symm⟩

end SingleAssignment
