import SingleAssignment.Proofs.Convert.Record

/-!
# Reads refer to reaching definitions

The reaching definitions of a read are said of single instructions and walks of control; the events
of a conversion know only names.  The main result ties them together: a read keeps its local if no
definition reaches it, takes the name of the only definition that does, and otherwise takes the name
of a phi, reported before it, that merges exactly the definitions that reach.
-/

namespace SingleAssignment

variable {τ : Type}

/-- The block that holds the instruction at position `k` starts at the offset `o`. -/
def Program.BlockStart (p : Program τ) (k : Nat) (o : Offset) : Prop :=
  ∃ g n b i, FlowGraph.ofProgram p = .ok g ∧ (n, b) ∈ g.blocksInOrder ∧ p.at? k = some i ∧
    i ∈ b.instructions ∧ b.offset = o

theorem FlowGraph.StartsAt.blockStart {p : Program τ} {g : FlowGraph τ} {k : Nat} {o : Offset}
    (hg : FlowGraph.ofProgram p = .ok g) (h : g.StartsAt k o) : p.BlockStart k o := by
  obtain ⟨n, b, start, l, hp, hl, rfl, ho⟩ := h
  have hi := Array.getElem?_eq_getElem hl
  refine ⟨g, n, b, b.instructions[l], hg, hp.mem, ?_, Array.getElem_mem hl, ho⟩
  rw [(build_laid hg).at?_eq hp hl]
  exact hi

namespace Converted

variable {p : Program τ} {g : FlowGraph τ} {es : List (Emission τ)} {r : Recorder τ}

/-- The events around the instruction emitted for a position. -/
theorem exists_events (h : Converted p g es r) {k : Nat} {e : Emission τ}
    (he : es[k]? = some e) :
    ∃ before after, r.events.toList = before ++ .instruction e.instruction :: after ∧
      (before.filterMap Event.instruction?).length = k ∧
      ∀ w e', w ≤ k → es[w]? = some e' → ∀ φ ∈ e'.phis, .phi φ ∈ before := by
  obtain ⟨hk, rfl⟩ := List.getElem?_eq_some_iff.1 he
  have hsplit : es = es.take k ++ es[k] :: es.drop (k + 1) := by
    rw [List.getElem_cons_drop, List.take_append_drop]
  have hmem : ∀ {e' : Emission τ} {φ : Phi}, φ ∈ e'.phis →
      (.phi φ : Event τ) ∈ e'.phis.flatMap Phi.events := by
    intro e' φ hφ
    refine List.mem_flatMap.2 ⟨φ, hφ, ?_⟩
    simp [Phi.events]
  refine ⟨((destinations (emittedInstructions es)).zip
      (destinations p.instructions.toList)).map (fun d => .unalias d.1 d.2) ++
      (es.take k).flatMap Emission.events ++ es[k].phis.flatMap Phi.events,
    (es.drop (k + 1)).flatMap Emission.events, ?_, ?_, ?_⟩
  · rw [h.events]
    nth_rewrite 2 [hsplit]
    rw [List.flatMap_append, List.flatMap_cons, Emission.events]
    simp only [List.append_assoc, List.cons_append, List.nil_append]
  · have hphis : (es[k].phis.flatMap (Phi.events (τ := τ))).filterMap Event.instruction? = [] := by
      rw [List.filterMap_flatMap]
      exact List.flatMap_eq_nil_iff.2 fun _ _ => rfl
    rw [List.filterMap_append, List.filterMap_append, filterMap_instruction?_events, hphis,
      List.filterMap_map, List.append_nil, List.length_append,
      List.filterMap_eq_nil_iff.2 fun _ _ => by rfl, List.length_nil, Nat.zero_add,
      emittedInstructions, List.length_map, List.length_take, Nat.min_eq_left (Nat.le_of_lt hk)]
  · intro w e' hw he' φ hφ
    rcases Nat.lt_or_eq_of_le hw with hlt | rfl
    · refine List.mem_append_left _ (List.mem_append_right _ (List.mem_flatMap.2
        ⟨e', ?_, List.mem_append_left _ (hmem hφ)⟩))
      refine List.mem_of_getElem? (i := w) ?_
      rw [List.getElem?_take, if_pos hlt, he']
    · cases he.symm.trans he'
      exact List.mem_append_right _ (hmem hφ)

end Converted

/-- **Reads refer to reaching definitions.**  The instruction emitted for position `k` keeps the
local `x` if no definition of `x` reaches `k`.  It takes the destination of the only definition that
reaches.  Else it takes the result of a phi reported before it, whose contributors are the
destinations of all definitions that reach, each once and with the start of its block. -/
theorem convert_reads_reaching_definitions {config : Config} {schedule : Schedule}
    {p : Program τ} {stats : Stats} (h : (convert config schedule p).outcome = .ok stats)
    {k j : Nat} {i : Instruction τ} {x : Local} (hi : p.at? k = some i)
    (hx : i.operands[j]? = some x) :
    ∃ before u after y,
      (convert config schedule p).recorded.events.toList = before ++ .instruction u :: after ∧
      (before.filterMap Event.instruction?).length = k ∧ u.offset = i.offset ∧
      u.operands[j]? = some y ∧
      ((∀ d, ¬ p.ReachingDefinition x d k) → y = x) ∧
      (∀ d, (∀ d', p.ReachingDefinition x d' k ↔ d' = d) →
        destinationAt (convert config schedule p).recorded.instructions d = some y) ∧
      ((∃ d d', d ≠ d' ∧ p.ReachingDefinition x d k ∧ p.ReachingDefinition x d' k) →
        ∃ φ ds, .phi φ ∈ before ∧ φ.result = y ∧ ds.Nodup ∧
          (∀ d, d ∈ ds ↔ p.ReachingDefinition x d k) ∧
          (φ.contributors.map (·.value)).Nodup ∧
          List.Forall₂ (fun d c =>
            destinationAt (convert config schedule p).recorded.instructions d = some c.value ∧
              p.BlockStart d c.predecessor) ds φ.contributors) := by
  obtain ⟨g, es, hc⟩ := convert_converted h
  rw [hc.instructions]
  have hk : k < es.length := by
    rw [hc.rendering.length]
    exact (Array.getElem?_eq_some_iff.1 hi).1
  have he : es[k]? = some es[k] := List.getElem?_eq_getElem hk
  obtain ⟨before, after, hevents, hcount, hphi⟩ := hc.exists_events he
  obtain ⟨hj, rfl⟩ := List.getElem?_eq_some_iff.1 hx
  have hops := hc.rendering.operands hi he
  have hju : j < es[k].instruction.operands.length := by
    rw [← hops.length_eq]
    exact hj
  have hread := hops.get hj hju
  refine ⟨before, es[k].instruction, after, _, hevents, hcount, (hc.rendering.kept hi he).1,
    List.getElem?_eq_getElem hju, ?_⟩
  simp only [List.get_eq_getElem] at hread
  generalize es[k].instruction.operands[j] = y, i.operands[j] = x at hread
  cases hread with
  | unresolved hnone =>
      refine ⟨fun _ => rfl, fun d hd => absurd ((hd d).2 rfl) (hnone d), ?_⟩
      rintro ⟨d, -, -, hd, -⟩
      exact absurd hd (hnone d)
  | @single d y hone hy =>
      have hd := (hone d).2 rfl
      refine ⟨fun hnone => absurd hd (hnone d), fun d' hd' => ?_, ?_⟩
      · rw [← (hd' d).1 hd]
        exact hy
      · rintro ⟨d₁, d₂, hne, hd₁, hd₂⟩
        exact absurd (((hone d₁).1 hd₁).trans ((hone d₂).1 hd₂).symm) hne
  | @merged w e φ hw he' hφ ho hmerged hlen _ =>
      obtain ⟨d₁, d₂, hne, hd₁, hd₂⟩ := hmerged.two_definitions hlen
      refine ⟨fun hnone => absurd hd₁ (hnone d₁), fun d hd => ?_, fun _ => ?_⟩
      · exact absurd (((hd d₁).1 hd₁).trans ((hd d₂).1 hd₂).symm) hne
      · have hvalues := hc.nodup_values hmerged
        obtain ⟨ds, hnodup, hmem, hall⟩ := hmerged
        refine ⟨φ, ds, hphi w e hw he' φ hφ, rfl, hnodup, hmem, hvalues, ?_⟩
        exact hall.imp fun d c hdc => ⟨hdc.1, hdc.2.blockStart hc.built⟩

/-- In the counting loop the assignments at 0 and 1 both reach the read at 1, which becomes the
result of a phi with both. -/
theorem countingLoop_read_merged :
    ∃ before u after y φ ds,
      (convert {} .sequential countingLoop).recorded.events.toList =
        before ++ .instruction u :: after ∧
      (before.filterMap Event.instruction?).length = 1 ∧ u.operands[0]? = some y ∧
      .phi φ ∈ before ∧ φ.result = y ∧ 0 ∈ ds ∧ 1 ∈ ds ∧
      List.Forall₂ (fun d c =>
        destinationAt (convert {} .sequential countingLoop).recorded.instructions d =
          some c.value ∧ countingLoop.BlockStart d c.predecessor) ds φ.contributors := by
  have hfirst : countingLoop.ReachingDefinition ⟨5⟩ 0 1 :=
    ⟨by decide, .step ⟨_, _, rfl, rfl, .inl ⟨rfl, rfl⟩⟩⟩
  have hback : countingLoop.ReachingDefinition ⟨5⟩ 1 1 :=
    ⟨by decide, .tail (.step ⟨_, _, rfl, rfl, .inl ⟨rfl, rfl⟩⟩) (by decide)
      ⟨_, _, rfl, rfl, .inr ⟨true, rfl⟩⟩⟩
  obtain ⟨before, u, after, y, hevents, hcount, -, hy, -, -, hphi⟩ :=
    convert_reads_reaching_definitions convert_countingLoop (k := 1) (j := 0) rfl rfl
  obtain ⟨φ, ds, hφ, hresult, -, hmem, -, hall⟩ := hphi ⟨0, 1, by decide, hfirst, hback⟩
  exact ⟨before, u, after, y, φ, ds, hevents, hcount, hy, hφ, hresult, (hmem 0).2 hfirst,
    (hmem 1).2 hback, hall⟩

end SingleAssignment
