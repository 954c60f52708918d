import SingleAssignment.Proofs.Flow.Position

/-!
# Blocks partition the instructions

The blocks of a flow graph cut its instructions exactly where blocks have to start.

* `FlowGraph.Laid.leads_iff` — the positions where blocks start are those where `Leads` says so.
* `FlowGraph.Laid.successors_eq_nil` — control leaves entered blocks only.
* `build_partitions_at_leaders` — **for any set of labels, building succeeds and partitions the
  instructions at their leaders**; the nodes are numbered in the order in which the scan comes upon
  their offsets.
-/

namespace SingleAssignment

variable {τ : Type}

theorem FlowGraph.map_offset_blocks (g : FlowGraph τ) :
    g.blocks.map (·.2.offset) = blockOffsets g.graph := by
  unfold blocks blockOffsets
  rw [List.map_map]
  nth_rewrite 2 [← List.zipIdx_map_fst 0 g.graph.nodes.toList]
  rw [List.map_map]
  rfl

namespace FlowGraph.Laid

variable {labels : Std.TreeSet Offset} {is : List (Instruction τ)} {g : FlowGraph τ} {n : Node}
  {b : Block τ} {start k : Nat}

/-- A block starts with an instruction at its offset. -/
theorem exists_head (h : g.Laid labels is) (hp : Placed g.blocksInOrder n b start) :
    ∃ i, is[start]? = some i ∧ b.instructions[0]? = some i ∧ i.offset = b.offset := by
  have hpos := h.size_pos hp
  have hhead := Array.getElem?_eq_getElem hpos
  refine ⟨b.instructions[0], (h.getElem?_eq hp hpos).trans hhead, hhead, ?_⟩
  apply h.layout.heads (n, b) hp.mem
  rw [List.head?_eq_getElem?, Array.getElem?_toList]
  exact hhead

/-- Nothing inside a block starts a block. -/
theorem not_leads_inner (h : g.Laid labels is) (hp : Placed g.blocksInOrder n b start) {l : Nat}
    (hl : l + 1 < b.instructions.size) : ¬ Leads labels is (start + (l + 1)) := by
  rintro ⟨i, hi, hzero | hbranch | hlabel⟩
  · omega
  · have hlt : l < b.instructions.size := by omega
    have hl' := Array.getElem?_eq_getElem hlt
    rw [show start + (l + 1) - 1 = start + l by omega, h.getElem?_eq hp hlt, hl'] at hbranch
    have hstraight := h.layout.straight (n, b) hp.mem _ (Block.mem_dropLast hl' hl)
    simp [hstraight] at hbranch
  · rw [h.getElem?_eq hp hl] at hi
    exact h.layout.inner (n, b) hp.mem i (Block.mem_tail hi) hlabel

/-- A block stands at the first instruction, behind a branch or at a label. -/
theorem leads_start (h : g.Laid labels is) (hp : Placed g.blocksInOrder n b start) :
    Leads labels is start := by
  obtain ⟨i, hi, -, hoffset⟩ := h.exists_head hp
  refine ⟨i, hi, ?_⟩
  obtain ⟨front, back, hblocks, rfl⟩ := hp
  rcases List.eq_nil_or_concat front with rfl | ⟨front, ⟨m, c⟩, rfl⟩
  · exact .inl rfl
  · rw [List.concat_eq_append] at hblocks ⊢
    have hled := h.led
    rw [hblocks, List.isChain_append] at hled
    rcases hled.2.2 (m, c) (by simp) (n, b) (by simp) with hflag | hlabel
    · -- the block before ends in a branch, which stands at the position before
      have hc : Placed g.blocksInOrder m c (allInstructions front).length :=
        ⟨front, (n, b) :: back, by rw [hblocks]; simp, rfl⟩
      have hpos := h.size_pos hc
      have hlast := h.getElem?_eq hc (l := c.instructions.size - 1) (by omega)
      rw [← Array.back?_eq_getElem?] at hlast
      refine .inr (.inl ?_)
      rw [show (allInstructions (front ++ [(m, c)])).length - 1 =
        (allInstructions front).length + (c.instructions.size - 1) by
          simp [allInstructions]; omega, hlast]
      unfold Scan.lastFlag at hflag
      cases hback : c.instructions.back? with
      | none => simp [hback] at hflag
      | some j => simpa [hback, Instruction.isBranch] using hflag
    · rw [hoffset]
      exact .inr (.inr hlabel)

/-- **Blocks start exactly where they have to.** -/
theorem leads_iff (h : g.Laid labels is) :
    Leads labels is k ↔ ∃ n b, Placed g.blocksInOrder n b k := by
  constructor
  · intro hlead
    obtain ⟨n, b, start, l, hp, hl, rfl⟩ := h.exists_place hlead.lt_length
    cases l with
    | zero => exact ⟨n, b, hp⟩
    | succ l => exact absurd hlead (h.not_leads_inner hp hl)
  · rintro ⟨n, b, hp⟩
    exact h.leads_start hp

/-- A label has a block that was entered iff it has an instruction. -/
theorem mem_offsets_of_label (h : g.Laid labels is) {o : Offset} (ho : o ∈ labels) :
    o ∈ g.blocksInOrder.map (·.2.offset) ↔ o ∈ is.map (·.offset) := by
  constructor
  · intro hmem
    obtain ⟨⟨n, b⟩, hq, rfl⟩ := List.mem_map.1 hmem
    obtain ⟨start, hp⟩ := exists_placed_of_mem hq
    obtain ⟨i, hi, -, hoffset⟩ := h.exists_head hp
    exact List.mem_map.2 ⟨i, List.mem_of_getElem? hi, hoffset⟩
  · intro hmem
    obtain ⟨j, hj, rfl⟩ := List.mem_map.1 hmem
    obtain ⟨k, hk⟩ := List.mem_iff_getElem?.1 hj
    obtain ⟨n, b, hp⟩ := h.leads_iff.1 ⟨j, hk, .inr (.inr ho)⟩
    obtain ⟨i, hi, -, hoffset⟩ := h.exists_head hp
    rw [hk] at hi
    cases hi
    exact List.mem_map.2 ⟨(n, b), hp.mem, hoffset.symm⟩

theorem mem_order_iff (h : g.Laid labels is) :
    n ∈ g.order.toList ↔ ∃ b start, Placed g.blocksInOrder n b start := by
  rw [h.order]
  constructor
  · intro hn
    obtain ⟨⟨m, b⟩, hq, rfl⟩ := List.mem_map.1 hn
    exact ⟨b, exists_placed_of_mem hq⟩
  · rintro ⟨b, start, hp⟩
    exact List.mem_map.2 ⟨_, hp.mem, rfl⟩

/-- Control leaves entered blocks only. -/
theorem successors_eq_nil (h : g.Laid labels is) (hn : n ∉ g.order.toList) :
    g.successors n = [] := by
  refine List.eq_nil_iff_forall_not_mem.2 fun m hm => hn ?_
  obtain ⟨e, he, rfl, -⟩ := h.layout.linked.mem_successors.1 hm
  have hview : (e.source, offsetAt g.graph e.target, e.label) ∈ edgeView g.graph :=
    List.mem_map.2 ⟨e, he, rfl⟩
  rw [h.layout.edges] at hview
  obtain ⟨⟨n, o, kind⟩, hmem, heq⟩ := List.mem_map.1 hview
  obtain ⟨rfl, -⟩ := Prod.mk.inj heq
  rw [h.order]
  exact layoutEdges_source hmem

/-- The first instruction is in the block with number 0. -/
theorem order_zero (h : g.Laid labels is) (hne : is ≠ []) : g.order[0]? = some 0 := by
  obtain ⟨i, rest, rfl⟩ := List.exists_cons_of_ne_nil hne
  obtain ⟨n, b, hp⟩ := h.leads_iff.1 (leads_zero i rest)
  obtain ⟨j, hj, -, hoffset⟩ := h.exists_head hp
  cases hj
  have hfirst : offsetAt g.graph 0 = some i.offset := by
    rw [← getElem?_blockOffsets, h.met]
    simp [offsetsMet, leads_zero, List.eraseDups_cons]
  obtain rfl := h.layout.node_unique ((h.offsetAt_eq hp).trans (by rw [hoffset])) hfirst
  obtain ⟨front, back, hblocks, hlen⟩ := hp
  cases front with
  | nil => rw [← Array.getElem?_toList, h.order, hblocks]; rfl
  | cons q front =>
      have hpos := h.size_pos ⟨[], front ++ (0, b) :: back, hblocks, rfl⟩
      rw [length_allInstructions_cons] at hlen
      omega

end FlowGraph.Laid

/-- **Blocks partition the instructions at their leaders.**  Instructions with distinct offsets have
a flow graph for any set of labels.  Its blocks in order, put behind each other, are the
instructions; they start with the instructions that `Leads` names, each at the offset of its first
instruction.  All other blocks are empty and lead nowhere.  Offsets tell blocks apart, and the
blocks are numbered by the first occurrence of their offsets in the order of the scan. -/
theorem build_partitions_at_leaders {labels : Std.TreeSet Offset} {is : List (Instruction τ)}
    (hne : is ≠ []) (hdistinct : (is.map (·.offset)).Nodup) :
    ∃ g, FlowGraph.build labels is = .ok g ∧
      g.blocksInOrder.map (·.1) = g.order.toList ∧
      g.blocksInOrder.flatMap (·.2.instructions.toList) = is ∧
      g.order.toList.Nodup ∧ g.order[0]? = some 0 ∧
      (∀ q ∈ g.blocksInOrder, ∃ i, q.2.instructions[0]? = some i ∧ i.offset = q.2.offset) ∧
      (∀ i, (∃ q ∈ g.blocksInOrder, q.2.instructions[0]? = some i) ↔
        ∃ k, is[k]? = some i ∧ Leads labels is k) ∧
      (∀ n b, g.block? n = some b → n ∉ g.order.toList →
        b.instructions = #[] ∧ g.successors n = []) ∧
      (g.blocks.map (·.2.offset)).Nodup ∧
      (∀ o n, g.nodeAt? o = some n ↔ ∃ b, g.block? n = some b ∧ b.offset = o) ∧
      g.blocks.map (·.2.offset) = ((is.head hne).offset :: offsetsMet labels is).eraseDups := by
  obtain ⟨g, hg, h⟩ := FlowGraph.exists_build labels hne hdistinct
  refine ⟨g, hg, h.order.symm, h.contents, ?_, h.order_zero hne, ?_, ?_, ?_, ?_, ?_, ?_⟩
  · rw [h.order]
    exact h.layout.nodup
  · rintro ⟨n, b⟩ hq
    obtain ⟨start, hp⟩ := exists_placed_of_mem hq
    obtain ⟨i, -, hi⟩ := h.exists_head hp
    exact ⟨i, hi⟩
  · intro i
    constructor
    · rintro ⟨⟨n, b⟩, hq, hi⟩
      obtain ⟨start, hp⟩ := exists_placed_of_mem hq
      obtain ⟨j, hj, hhead, -⟩ := h.exists_head hp
      rw [hhead] at hi
      cases hi
      exact ⟨_, hj, h.leads_start hp⟩
    · rintro ⟨k, hk, hlead⟩
      obtain ⟨n, b, hp⟩ := h.leads_iff.1 hlead
      obtain ⟨j, hj, hhead, -⟩ := h.exists_head hp
      rw [hk] at hj
      cases hj
      exact ⟨(n, b), hp.mem, hhead⟩
  · intro n b hb hn
    refine ⟨h.layout.idle n b hb ?_, h.successors_eq_nil hn⟩
    rw [← h.order]
    exact hn
  · rw [g.map_offset_blocks]
    exact h.layout.nodup_blockOffsets
  · intro o n
    rw [FlowGraph.nodeAt?, h.layout.index o n]
    exact Option.map_eq_some_iff
  · rw [g.map_offset_blocks, h.met]
    obtain ⟨i, rest, rfl⟩ := List.exists_cons_of_ne_nil hne
    simp [offsetsMet, leads_zero, List.eraseDups_cons]

/-- A conditional branch over an instruction, and its target behind it. -/
def skipOne : List (Instruction Unit) :=
  [⟨0, (), [], .effect⟩, ⟨1, (), [], .branch true 3⟩, ⟨2, (), [], .effect⟩, ⟨3, (), [], .effect⟩]

/-- Without labels the target of the branch stays inside a block, and its own block stays empty. -/
theorem skipOne_partitioned :
    skipOne ≠ [] ∧ (skipOne.map (·.offset)).Nodup ∧
    ∃ g, FlowGraph.build ∅ skipOne = .ok g ∧
      (∀ i, (∃ q ∈ g.blocksInOrder, q.2.instructions[0]? = some i) ↔
        ∃ k, skipOne[k]? = some i ∧ Leads ∅ skipOne k) ∧
      g.blocks.map (·.2.offset) = [0, 3, 2] := by
  have hne : skipOne ≠ [] := by decide
  have hdistinct : (skipOne.map (·.offset)).Nodup := by decide
  obtain ⟨g, hg, -, -, -, -, -, hleads, -, -, -, hblocks⟩ :=
    @build_partitions_at_leaders _ ∅ _ hne hdistinct
  refine ⟨hne, hdistinct, g, hg, hleads, hblocks.trans ?_⟩
  simp [offsetsMet, skipOne, Leads, List.eraseDups_cons, Instruction.branch?, Instruction.isBranch]

end SingleAssignment
