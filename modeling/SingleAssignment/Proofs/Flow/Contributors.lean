import Mathlib.Tactic.Choose
import SingleAssignment.Proofs.Flow.Reservation

/-!
# Contributors are reaching definitions

The search runs backwards over renamed blocks and answers with names; reaching definitions are
positions in the program.  This module puts the two side by side.

* `FlowGraph.StartsAt` — the offset of the block around a position.
* `FlowGraph.RenamedTo.nodup_predecessors` — the search finds one definition for each block.
* `FlowGraph.RenamedTo.contributors` — **the search finds the names of exactly the reaching
  definitions, each once and with the offset of its block.**
-/

namespace SingleAssignment

variable {τ : Type}

namespace FlowGraph

/-- The block around position `k` starts at the offset `o`. -/
def StartsAt (g : FlowGraph τ) (k : Nat) (o : Offset) : Prop :=
  ∃ n b start l, Placed g.blocksInOrder n b start ∧ l < b.instructions.size ∧ k = start + l ∧
    b.offset = o

theorem block?_of_mem {g : FlowGraph τ} {n : Node} {b : Block τ} (h : (n, b) ∈ g.blocksInOrder) :
    g.block? n = some b := by
  obtain ⟨m, -, hm⟩ := List.mem_filterMap.1 h
  obtain ⟨c, hc, he⟩ := Option.map_eq_some_iff.1 hm
  cases he
  exact hc

theorem Laid.placed_of_supplies {p : Program τ} {g : FlowGraph τ} {writes : Node → Prop}
    {d n : Node} {b : Block τ} {start : Nat} (h : g.Laid p.labels p.instructions.toList)
    (hs : g.Supplies writes d n) (hp : Placed g.blocksInOrder n b start) :
    ∃ c start', Placed g.blocksInOrder d c start' := by
  induction hs generalizing b start with
  | direct hpred _ => exact h.placed_of_mem_predecessors hp hpred
  | through hpred _ _ ih =>
      obtain ⟨c, start', hc⟩ := h.placed_of_mem_predecessors hp hpred
      exact ih hc

/-- The last assignment to `x` in the block at `n` stands at position `d`. -/
def LastWrites (g : FlowGraph τ) (x : Local) (n : Node) (d : Nat) : Prop :=
  ∃ c start l, Placed g.blocksInOrder n c start ∧ c.LastAssigns x l ∧ d = start + l

theorem LastWrites.node_unique {g : FlowGraph τ} {x : Local} {n m : Node} {d : Nat}
    (hn : g.LastWrites x n d) (hm : g.LastWrites x m d) : n = m := by
  obtain ⟨b, start, l, hp, hl, rfl⟩ := hn
  obtain ⟨c, start', l', hp', hl', he⟩ := hm
  exact (hp.unique hp' hl.1.lt hl'.1.lt he).1

namespace RenamedTo

variable {p : Program τ} {g g' : FlowGraph τ}

theorem exists_predecessor (h : g.RenamedTo g') (hlaid : g.Laid p.labels p.instructions.toList)
    {n m : Node} (hm : m ∈ g'.predecessors n) : ∃ b, g'.block? m = some b := by
  rw [h.predecessors] at hm
  obtain ⟨e, he, rfl, -⟩ := hlaid.layout.linked.mem_predecessors.1 hm
  obtain ⟨b, hb⟩ := node?_of_lt (hlaid.layout.linked.endpoints e he).1
  obtain ⟨b', hb', -⟩ := h.block? hb
  exact ⟨b', hb'⟩

/-- Different contributors come from different blocks. -/
theorem nodup_predecessors (h : g.RenamedTo g') (hlaid : g.Laid p.labels p.instructions.toList)
    {n : Node} {x : Local} {cs : List Contributor} (hcs : g'.reachingDefinitions n x = .ok cs) :
    (cs.map (·.predecessor)).Nodup := by
  obtain ⟨nodes, hall, hnodup, -⟩ :=
    reachingDefinitions_found (fun hm => h.exists_predecessor hlaid hm) hcs
  have hoffset : ∀ {m c}, g'.ContributesAs x m c → offsetAt g.graph m = some c.predecessor := by
    rintro m c ⟨b', hb', -, ho⟩
    cases hb : g.block? m with
    | none =>
        rw [h.block?_eq_none hb] at hb'
        cases hb'
    | some b =>
        obtain ⟨b'', hb'', hr⟩ := h.block? hb
        rw [hb'] at hb''
        cases hb''
        rw [offsetAt, show g.graph.node? m = some b from hb, ← ho, hr.offset]
        rfl
  have hoffsets : nodes.map (offsetAt g.graph) = cs.map fun c => some c.predecessor := by
    rw [← List.forall₂_eq_eq_eq, List.forall₂_map_left_iff, List.forall₂_map_right_iff]
    exact hall.imp fun m c => hoffset
  refine List.Nodup.of_map some ?_
  rw [List.map_map, Function.comp_def, ← hoffsets]
  refine hnodup.map_on fun m hm m' _ he => ?_
  have hm := List.mem_map_of_mem (f := offsetAt g.graph) hm
  rw [hoffsets] at hm
  obtain ⟨c, -, hc⟩ := List.mem_map.1 hm
  exact hlaid.layout.node_unique hc.symm (he ▸ hc.symm)

/-- An exporting block contributes the new name of its last assignment. -/
theorem contributor (h : g.RenamedTo g') {x : Local} {n : Node} {d : Nat} {c : Contributor}
    (hd : g.LastWrites x n d) (hc : g'.ContributesAs x n c) :
    destinationAt (allInstructions g'.blocksInOrder) d = some c.value ∧
      g.StartsAt d c.predecessor := by
  obtain ⟨b, start, l, hp, hl, rfl⟩ := hd
  obtain ⟨b', hp', hr⟩ := h.placed hp
  obtain ⟨b'', hb'', hvalue, hoffset⟩ := hc
  rw [block?_of_mem hp'.mem] at hb''
  cases hb''
  obtain ⟨r, y, hr', hy, -⟩ := hr.renamed_assignment hl.1
  constructor
  · unfold destinationAt
    rw [hp'.getElem? (by rw [hr.size]; exact hl.1.lt), hr', Option.bind_some,
      ← hr.exports hl hr', hvalue]
  · exact ⟨n, b, start, l, hp, hl.1.lt, rfl, by rw [← hr.offset, hoffset]⟩

/-- **The search finds the names of exactly the reaching definitions.** -/
theorem contributors (h : g.RenamedTo g') (hlaid : g.Laid p.labels p.instructions.toList)
    {n : Node} {b : Block τ} {start l : Nat} {x : Local} {cs : List Contributor}
    (hp : Placed g.blocksInOrder n b start) (hl : l < b.instructions.size)
    (hno : ∀ q < l, ¬ b.Assigns x q) (hcs : g'.reachingDefinitions n x = .ok cs) :
    ∃ ds : List Nat, ds.Nodup ∧ (∀ d, d ∈ ds ↔ p.ReachingDefinition x d (start + l)) ∧
      List.Forall₂ (fun d c => destinationAt (allInstructions g'.blocksInOrder) d = some c.value ∧
        g.StartsAt d c.predecessor) ds cs := by
  obtain ⟨nodes, hall, hnodup, hmem⟩ :=
    reachingDefinitions_found (fun hm => h.exists_predecessor hlaid hm) hcs
  have hlast : ∀ m, ∃ d, m ∈ nodes → g.LastWrites x m d := by
    intro m
    by_cases hm : m ∈ nodes
    · have hs := h.supplies_iff.1 ((hmem m).1 hm)
      obtain ⟨c, start', hc⟩ := hlaid.placed_of_supplies hs hp
      obtain ⟨l', hl'⟩ := (hlaid.writes_iff hc).1 hs.writes
      obtain ⟨l'', hlast⟩ := Block.exists_lastAssigns hl'
      exact ⟨start' + l'', fun _ => ⟨c, start', l'', hc, hlast, rfl⟩⟩
    · exact ⟨0, fun hm' => absurd hm' hm⟩
  choose position hposition using hlast
  refine ⟨nodes.map position, ?_, fun d => ?_, ?_⟩
  · refine hnodup.map_on fun m hm m' hm' he => ?_
    have hm := hposition m hm
    rw [he] at hm
    exact hm.node_unique (hposition m' hm')
  · rw [hlaid.reaching_across hp hl hno, List.mem_map]
    constructor
    · rintro ⟨m, hm, rfl⟩
      obtain ⟨c, start', l', hc, hlast, he⟩ := hposition m hm
      exact ⟨m, c, start', l', h.supplies_iff.1 ((hmem m).1 hm), hc, hlast, he⟩
    · rintro ⟨m, c, start', l', hs, hc, hlast, rfl⟩
      have hm := (hmem m).2 (h.supplies_iff.2 hs)
      refine ⟨m, hm, ?_⟩
      -- a block has one place and one last assignment
      obtain ⟨c', start'', l'', hc', hlast', he⟩ := hposition m hm
      obtain ⟨rfl, rfl⟩ := hc.unique_of_node hlaid.layout.nodup hc'
      rcases Nat.lt_trichotomy l' l'' with hlt | rfl | hgt
      · exact absurd hlast'.1 (hlast.2 l'' hlt)
      · exact he
      · exact absurd hlast.1 (hlast'.2 l' hgt)
  · rw [List.forall₂_map_left_iff]
    refine ((List.forall₂_and_left _ _).2 ⟨hposition, hall⟩).imp fun m c hmc => ?_
    exact h.contributor hmc.1 hmc.2

end RenamedTo

end FlowGraph

end SingleAssignment
