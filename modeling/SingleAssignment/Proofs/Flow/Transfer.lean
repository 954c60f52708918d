import SingleAssignment.Proofs.Flow.Partition

/-!
# Edges are the control flow of the instructions

What the edges of a flow graph say, read at one block and then at single instructions.

* `FlowGraph.exits` — the transfers behind the last instruction of a block.
* `FlowGraph.Laid.outgoingEdges_eq` — the outgoing edges of a block are its exits, in order.
* `FlowGraph.Laid.predecessors_eq` — the predecessors of a node are the blocks it succeeds, each
  once and in program order.
* `FlowGraph.Laid.canFollow_iff` — control passes between two instructions inside a block or along
  an edge.
* `build_edges_are_control_flow` — **edges are exactly the control flow**, if every target is a
  label.
-/

namespace SingleAssignment

variable {τ : Type}

/-! ## The transfers of one block in those of all -/

theorem Block.nodup_transfers (b : Block τ) (next : Option Offset) :
    ((b.transfers next).map (·.1)).Nodup := by
  unfold Block.transfers
  split
  · exact List.nodup_nil
  · split
    · cases next <;> simp
    · rename_i c t _
      split
      · rename_i hc
        cases next with
        | none => simp
        | some o =>
            have hne : t ≠ o := fun he => hc.2 (by rw [he])
            simp [hne]
      · simp

/-- The transfers that leave one of the blocks. -/
theorem filter_layoutEdges {front back : List (Node × Block τ)} {n : Node} {b : Block τ}
    (hnodup : ((front ++ (n, b) :: back).map (·.1)).Nodup) (next : Option Offset) :
    (layoutEdges next (front ++ (n, b) :: back)).filter (·.1 == n) =
      (b.transfers ((back.head?.map (·.2.offset)).or next)).map (n, ·) := by
  rw [List.map_append, List.map_cons, List.nodup_append, List.nodup_cons] at hnodup
  -- other blocks have other nodes
  have hother : ∀ {next' : Option Offset} {blocks : List (Node × Block τ)},
      n ∉ blocks.map (·.1) → (layoutEdges next' blocks).filter (·.1 == n) = [] := by
    intro next' blocks hn
    refine List.filter_eq_nil_iff.2 fun e he hsource => hn ?_
    rw [← beq_iff_eq.1 hsource]
    exact layoutEdges_source he
  have hfront : n ∉ front.map (·.1) := fun hin => hnodup.2.2 n hin n List.mem_cons_self rfl
  rw [layoutEdges_append, layoutEdges, List.filter_append, List.filter_append, hother hfront,
    hother hnodup.2.1.1, List.nil_append, List.append_nil]
  refine List.filter_eq_self.2 fun e he => ?_
  obtain ⟨t, -, rfl⟩ := List.mem_map.1 he
  exact beq_self_eq_true n

/-- Of transfers to distinct offsets, the one to a given offset. -/
theorem map_filter_transfers {ts : List (Offset × EdgeKind)} {o : Offset} (n : Node)
    (h : (ts.map (·.1)).Nodup) :
    (ts.filter (·.1 == o)).map (fun _ => n) = if o ∈ ts.map (·.1) then [n] else [] := by
  induction ts with
  | nil => rfl
  | cons t ts ih =>
      rw [List.map_cons, List.nodup_cons] at h
      rw [List.filter_cons, List.map_cons]
      by_cases ho : t.1 = o
      · subst ho
        simp [ih h.2, h.1]
      · have hne : (t.1 == o) = false := beq_false_of_ne ho
        rw [hne, if_neg Bool.false_ne_true, ih h.2]
        simp only [List.mem_cons, Ne.symm ho, false_or]

/-- The blocks that transfer control to an offset, in order and each once. -/
theorem map_source_layoutEdges (next : Option Offset) (o : Offset) (leads : Node → Bool) :
    ∀ blocks : List (Node × Block τ), (∀ front n b back, blocks = front ++ (n, b) :: back →
        (leads n = true ↔
          o ∈ (b.transfers ((back.head?.map (·.2.offset)).or next)).map (·.1))) →
      ((layoutEdges next blocks).filter (·.2.1 == o)).map (·.1) = (blocks.map (·.1)).filter leads
  | [], _ => rfl
  | (n, b) :: rest, h => by
    have hrest := map_source_layoutEdges next o leads rest fun front m c back hb =>
      h ((n, b) :: front) m c back (by rw [hb]; rfl)
    have hhead := h [] n b rest rfl
    have hone := map_filter_transfers (o := o) n
      (b.nodup_transfers ((rest.head?.map (·.2.offset)).or next))
    rw [layoutEdges, List.filter_append, List.map_append, hrest, List.filter_map, List.map_map,
      List.map_cons, List.filter_cons]
    simp only [Function.comp_def, hone, ← hhead]
    split <;> rfl

/-! ## Edges at one node -/

namespace FlowGraph

/-- The transfers behind the last instruction `i` of a block, where `next` is the instruction behind
it: to the target of a branch, and onward.  A conditional branch to the next instruction leads there
once. -/
def exits (g : FlowGraph τ) (i : Instruction τ) (next : Option (Instruction τ)) :
    List (Option Node × EdgeKind) :=
  match i.branch? with
  | none => next.toList.map fun j => (g.nodeAt? j.offset, .fallThrough)
  | some (conditional, target) =>
      if conditional then
        (g.nodeAt? target, .conditionalTrue) ::
          (next.toList.filter (·.offset ≠ target)).map fun j =>
            (g.nodeAt? j.offset, .conditionalFalse)
      else [(g.nodeAt? target, .unconditional)]

theorem exits_eq (g : FlowGraph τ) {b : Block τ} {i : Instruction τ}
    (hi : b.instructions.back? = some i) (next : Option (Instruction τ)) :
    g.exits i next =
      (b.transfers (next.map (·.offset))).map fun t => (g.nodeAt? t.1, t.2) := by
  unfold exits Block.transfers
  simp only [hi]
  cases hbranch : i.branch? with
  | none => cases next <;> simp
  | some ct =>
      obtain ⟨c, t⟩ := ct
      cases c with
      | false => simp [EdgeKind.ofBranch]
      | true =>
          cases next with
          | none => simp [EdgeKind.ofBranch]
          | some j =>
              by_cases hj : j.offset = t
              · simp [EdgeKind.ofBranch, hj]
              · simp [EdgeKind.ofBranch, hj]

namespace Laid

variable {labels : Std.TreeSet Offset} {is : List (Instruction τ)} {g : FlowGraph τ} {n m : Node}
  {b : Block τ} {start : Nat}

/-- Behind a block stands the next block, or nothing. -/
theorem next_offset (h : g.Laid labels is) {front back : List (Node × Block τ)}
    (hblocks : g.blocksInOrder = front ++ (n, b) :: back) :
    back.head?.map (·.2.offset) =
      is[(allInstructions front).length + b.instructions.size]?.map (·.offset) := by
  cases back with
  | nil =>
      have hall : allInstructions g.blocksInOrder = is := h.contents
      rw [List.getElem?_eq_none]
      · rfl
      · rw [← hall, hblocks]
        simp [allInstructions]
  | cons q back =>
      obtain ⟨m, c⟩ := q
      have hq : Placed g.blocksInOrder m c
          ((allInstructions front).length + b.instructions.size) :=
        ⟨front ++ [(n, b)], back, by rw [hblocks]; simp, by simp [allInstructions]⟩
      obtain ⟨i, hi, -, hoffset⟩ := h.exists_head hq
      rw [hi]
      exact congrArg some hoffset.symm

/-- The last instruction of a block, at its position. -/
theorem getElem?_last (h : g.Laid labels is) (hp : Placed g.blocksInOrder n b start) :
    is[start + (b.instructions.size - 1)]? = b.instructions.back? := by
  have hpos := h.size_pos hp
  rw [h.getElem?_eq hp (by omega), Array.back?_eq_getElem?]

/-- **The outgoing edges of a block** are what its last instruction and the one behind it say. -/
theorem outgoingEdges_eq (h : g.Laid labels is) (hp : Placed g.blocksInOrder n b start)
    {i : Instruction τ} (hi : b.instructions.back? = some i) :
    (g.outgoingEdges n).map (fun e => (some e.1, e.2)) =
      g.exits i is[start + b.instructions.size]? := by
  obtain ⟨front, back, hblocks, rfl⟩ := hp
  have hview : (g.graph.edgesFrom n).map (fun e => (offsetAt g.graph e.target, e.label)) =
      (b.transfers (back.head?.map (·.2.offset))).map fun t => (some t.1, t.2) := by
    have hedges := congrArg (List.filter (·.1 == n)) h.layout.edges
    have hnodup := h.layout.nodup
    rw [hblocks] at hedges hnodup
    rw [edgeView, List.filter_map, List.filter_map] at hedges
    simp only [Function.comp_def, filter_layoutEdges hnodup, Option.or_none] at hedges
    rw [h.layout.linked.edgesFrom_eq]
    simpa [Function.comp_def] using congrArg (List.map (·.2)) hedges
  rw [exits_eq g hi, ← h.next_offset hblocks]
  have hnodes := congrArg (List.map fun q => (q.1.bind g.nodeAt?, q.2)) hview
  rw [List.map_map, List.map_map] at hnodes
  refine Eq.trans ?_ hnodes
  rw [outgoingEdges, OrderedGraph.outgoingEdges, List.map_map]
  refine List.map_congr_left fun e he => ?_
  rw [h.layout.linked.edgesFrom_eq] at he
  obtain ⟨c, hc⟩ := node?_of_lt (h.layout.linked.endpoints e (List.mem_filter.1 he).1).2
  have hoffset : offsetAt g.graph e.target = some c.offset := by
    rw [offsetAt, hc]
    rfl
  have hnode : g.nodeAt? c.offset = some e.target := (h.layout.index _ _).2 hoffset
  simp only [Function.comp_def, hoffset, Option.bind_some, hnode]

/-- **The predecessors of a node** are the blocks that it succeeds, each once and in order. -/
theorem predecessors_eq (h : g.Laid labels is) (m : Node) :
    g.predecessors m = g.order.toList.filter fun n => decide (m ∈ g.successors n) := by
  cases hm : offsetAt g.graph m with
  | none =>
      -- a number that is no node has no neighbours on either side
      have hout : ∀ e ∈ g.graph.edges.toList, e.target ≠ m := by
        rintro e he rfl
        obtain ⟨c, hc⟩ := node?_of_lt (h.layout.linked.endpoints e he).2
        rw [offsetAt, hc] at hm
        cases hm
      have hleft : g.predecessors m = [] := by
        refine List.eq_nil_iff_forall_not_mem.2 fun n hn => ?_
        obtain ⟨e, he, -, ht⟩ := h.layout.linked.mem_predecessors.1 hn
        exact hout e he ht
      have hright : ∀ n, m ∉ g.successors n := by
        intro n hn
        obtain ⟨e, he, -, ht⟩ := h.layout.linked.mem_successors.1 hn
        exact hout e he ht
      simp [hleft, hright]
  | some o =>
      have hsource := map_source_layoutEdges none o (fun n => decide (m ∈ g.successors n))
        g.blocksInOrder ?_
      · rw [h.order, ← hsource]
        have hedges := congrArg (fun es => (es.filter (·.2.1 == some o)).map (·.1)) h.layout.edges
        simp only [edgeView, List.filter_map, List.map_map, Function.comp_def] at hedges
        rw [predecessors, OrderedGraph.predecessors, h.layout.linked.edgesInto_eq]
        refine Eq.trans (congrArg _ (List.filter_congr fun e _ => ?_)) (hedges.trans ?_)
        · have hiff : e.target = m ↔ offsetAt g.graph e.target = some o :=
            ⟨fun he => he ▸ hm, fun he => h.layout.node_unique he hm⟩
          rw [Bool.eq_iff_iff, beq_iff_eq, beq_iff_eq]
          exact hiff
        · simp
      · intro front n b back hblocks
        rw [decide_eq_true_iff, successors, h.layout.linked.mem_successors,
          h.layout.exists_edge_iff hm, List.mem_map]
        constructor
        · rintro ⟨k, hk⟩
          have hnodup := h.layout.nodup
          rw [hblocks] at hk hnodup
          have hmem : (n, o, k) ∈ (layoutEdges none (front ++ (n, b) :: back)).filter (·.1 == n) :=
            List.mem_filter.2 ⟨hk, beq_self_eq_true n⟩
          rw [filter_layoutEdges hnodup] at hmem
          obtain ⟨t, ht, he⟩ := List.mem_map.1 hmem
          cases he
          exact ⟨_, ht, rfl⟩
        · rintro ⟨t, ht, rfl⟩
          exact ⟨t.2, mem_layoutEdges.2 ⟨front, b, back, hblocks, ht⟩⟩

theorem nodup_predecessors (h : g.Laid labels is) (m : Node) : (g.predecessors m).Nodup := by
  rw [h.predecessors_eq, h.order]
  exact h.layout.nodup.filter _

/-! ## Single instructions -/

/-- An instruction of a block has its place there. -/
theorem position_eq (h : g.Laid labels is) (hp : Placed g.blocksInOrder n b start) {k l : Nat}
    {i : Instruction τ} (hi : is[k]? = some i) (hl : b.instructions[l]? = some i) :
    k = start + l := by
  have hat := h.getElem?_eq hp (Array.getElem?_eq_some_iff.1 hl).1
  exact h.position_unique hi (hat.trans hl) rfl

/-- The block at the offset of an instruction starts with it. -/
theorem head_of_nodeAt (h : g.Laid labels is)
    (hlabels : ∀ i ∈ is, ∀ c t, i.branch? = some (c, t) → t ∈ labels) {j : Instruction τ}
    (hj : j ∈ is) (hm : g.nodeAt? j.offset = some m) :
    ∃ c, (m, c) ∈ g.blocksInOrder ∧ c.instructions[0]? = some j := by
  obtain ⟨k, hk⟩ := List.mem_iff_getElem?.1 hj
  have hlead : Leads labels is k := by
    have hmet := h.layout.mem_blockOffsets_iff.2 ⟨m, hm⟩
    rw [h.met, List.mem_eraseDups] at hmet
    obtain ⟨⟨i, k'⟩, hi, hmem⟩ := List.mem_flatMap.1 hmet
    have hi := List.mem_zipIdx_iff_getElem?.1 hi
    rcases List.mem_append.1 hmem with hmem | hmem
    · split at hmem
      · rename_i hlead
        rw [h.position_unique hk hi (List.mem_singleton.1 hmem)]
        exact hlead
      · cases hmem
    · obtain ⟨⟨c, t⟩, hb, ht⟩ := Option.map_eq_some_iff.1 (Option.mem_toList.1 hmem)
      cases ht
      exact ⟨j, hk, .inr (.inr (hlabels i (List.mem_of_getElem? hi) c _ hb))⟩
  obtain ⟨n, b, hp⟩ := h.leads_iff.1 hlead
  obtain ⟨i, hi, hhead, hoffset⟩ := h.exists_head hp
  rw [hk] at hi
  cases hi
  obtain rfl := h.layout.node_unique ((h.offsetAt_eq hp).trans (by rw [hoffset]))
    ((h.layout.index _ _).1 hm)
  exact ⟨b, hp.mem, hhead⟩

/-- **Control between two instructions** passes inside one block, or from the end of a block to the
start of one of its successors. -/
theorem canFollow_iff (h : g.Laid labels is)
    (hlabels : ∀ i ∈ is, ∀ c t, i.branch? = some (c, t) → t ∈ labels) {k m : Nat}
    {i j : Instruction τ} (hi : is[k]? = some i) (hj : is[m]? = some j) :
    (Program.ofList is).CanFollow k m ↔
      (∃ q ∈ g.blocksInOrder, ∃ l, q.2.instructions[l]? = some i ∧
        q.2.instructions[l + 1]? = some j) ∨
      ∃ q ∈ g.blocksInOrder, ∃ q' ∈ g.blocksInOrder, q.2.instructions.back? = some i ∧
        q'.2.instructions[0]? = some j ∧ q'.1 ∈ g.successors q.1 := by
  have hp : g.Laid labels (Program.ofList is).instructions.toList := by
    rwa [Program.instructions_ofList]
  have hsubset : ∀ o ∈ (Program.ofList is).labels, o ∈ labels := by
    intro o ho
    obtain ⟨i, hi, c, hc⟩ := Program.mem_labels.1 ho
    rw [Program.instructions_ofList] at hi
    exact hlabels i hi c o hc
  obtain ⟨n, b, start, l, hb, hl, rfl⟩ := h.exists_place (List.getElem?_eq_some_iff.1 hj).1
  have hat := h.getElem?_eq hb hl
  rw [hj] at hat
  have hneighbours : ∀ m' : Node, m' ∈ g.predecessors n ↔ n ∈ g.successors m' := by
    intro m'
    rw [predecessors, successors, h.layout.linked.mem_predecessors,
      h.layout.linked.mem_successors]
  -- the instruction at a position is in no other place
  have hplace : ∀ {q : Node × Block τ} {s l' : Nat}, Placed g.blocksInOrder q.1 q.2 s →
      q.2.instructions[l']? = some j → q.1 = n ∧ s = start ∧ l' = l := by
    intro q s l' hq hl'
    have hm := h.position_eq hq hj hl'
    obtain ⟨hn, -, hs, hll⟩ := hb.unique hq hl (Array.getElem?_eq_some_iff.1 hl').1 hm
    exact ⟨hn.symm, hs.symm, hll.symm⟩
  cases l with
  | zero =>
      rw [Nat.add_zero, hp.canFollow_start hb]
      constructor
      · rintro ⟨m', c, start', hc, hk, hm'⟩
        refine .inr ⟨(m', c), hc.mem, (n, b), hb.mem, ?_, hat.symm, (hneighbours m').1 hm'⟩
        have hpos := h.size_pos hc
        rw [← h.getElem?_last hc, ← hi, show start' + (c.instructions.size - 1) = k by omega]
      · rintro (⟨q, hq, l', -, hl'⟩ | ⟨⟨m', c⟩, hq, q', hq', hback, hhead, hsucc⟩)
        · obtain ⟨s, hq⟩ := exists_placed_of_mem hq
          exact absurd (hplace hq hl').2.2 (Nat.succ_ne_zero l')
        · obtain ⟨s, hq⟩ := exists_placed_of_mem hq
          obtain ⟨s', hq'⟩ := exists_placed_of_mem hq'
          rw [(hplace hq' hhead).1] at hsucc
          rw [Array.back?_eq_getElem?] at hback
          have hk : k = s + (c.instructions.size - 1) := h.position_eq hq hi hback
          have hpos := h.size_pos hq
          exact ⟨m', c, s, hq, by omega, (hneighbours m').2 hsucc⟩
  | succ l =>
      rw [hp.canFollow_inner hsubset hb hl]
      constructor
      · rintro rfl
        refine .inl ⟨(n, b), hb.mem, l, ?_, hat.symm⟩
        rw [← hi, h.getElem?_eq hb (by omega)]
      · rintro (⟨q, hq, l', hl', hnext⟩ | ⟨q, -, q', hq', -, hhead, -⟩)
        · obtain ⟨s, hq⟩ := exists_placed_of_mem hq
          obtain ⟨-, rfl, hll⟩ := hplace hq hnext
          rw [h.position_eq hq hi hl', Nat.succ.inj hll]
        · obtain ⟨s', hq'⟩ := exists_placed_of_mem hq'
          exact absurd (hplace hq' hhead).2.2 (Nat.succ_ne_zero l).symm

end Laid

end FlowGraph

/-- **Edges are exactly the control flow.**  Instructions with distinct offsets whose branches lead
to labels have a flow graph.  In it only last instructions of blocks branch, the outgoing edges of a
block are its exits, the predecessors of a block are the blocks it succeeds in program order, and
one instruction can follow another iff it stands behind it in a block or starts a successor of the
block that the other one ends. -/
theorem build_edges_are_control_flow {labels : Std.TreeSet Offset} {is : List (Instruction τ)}
    (hne : is ≠ []) (hdistinct : (is.map (·.offset)).Nodup)
    (hlabels : ∀ i ∈ is, ∀ c t, i.branch? = some (c, t) → t ∈ labels) :
    ∃ g, FlowGraph.build labels is = .ok g ∧
      (∀ j ∈ is, ∀ m, g.nodeAt? j.offset = some m →
        ∃ c, (m, c) ∈ g.blocksInOrder ∧ c.instructions[0]? = some j) ∧
      (∀ n b, (n, b) ∈ g.blocksInOrder →
        (∀ i ∈ b.instructions.toList.dropLast, i.isBranch = false) ∧
        ∃ k i, is[k]? = some i ∧ b.instructions.back? = some i ∧
          (g.outgoingEdges n).map (fun e => (some e.1, e.2)) = g.exits i is[k + 1]?) ∧
      (∀ m, (g.predecessors m).Nodup ∧
        g.predecessors m = g.order.toList.filter fun n => decide (m ∈ g.successors n)) ∧
      ∀ k m i j, is[k]? = some i → is[m]? = some j →
        ((Program.ofList is).CanFollow k m ↔
          (∃ q ∈ g.blocksInOrder, ∃ l, q.2.instructions[l]? = some i ∧
            q.2.instructions[l + 1]? = some j) ∨
          ∃ q ∈ g.blocksInOrder, ∃ q' ∈ g.blocksInOrder, q.2.instructions.back? = some i ∧
            q'.2.instructions[0]? = some j ∧ q'.1 ∈ g.successors q.1) := by
  obtain ⟨g, hg, h⟩ := FlowGraph.exists_build labels hne hdistinct
  refine ⟨g, hg, fun j hj m hm => h.head_of_nodeAt hlabels hj hm, ?_, ?_, ?_⟩
  · intro n b hq
    refine ⟨h.layout.straight (n, b) hq, ?_⟩
    obtain ⟨start, hp⟩ := exists_placed_of_mem hq
    have hpos := h.size_pos hp
    have hlast := h.getElem?_last hp
    obtain ⟨i, hi⟩ : ∃ i, b.instructions.back? = some i := by
      rw [Array.back?_eq_getElem?]
      exact ⟨_, Array.getElem?_eq_getElem (by omega)⟩
    refine ⟨_, i, hlast.trans hi, hi, ?_⟩
    rw [h.outgoingEdges_eq hp hi,
      show start + (b.instructions.size - 1) + 1 = start + b.instructions.size by omega]
  · intro m
    exact ⟨h.nodup_predecessors m, h.predecessors_eq m⟩
  · intro k m i j hi hj
    exact h.canFollow_iff hlabels hi hj

/-- A branch to the next instruction, a loop, and a jump to where nothing is. -/
def loopAndLeave : List (Instruction Unit) :=
  [⟨0, (), [], .branch true 1⟩, ⟨1, (), [], .effect⟩, ⟨2, (), [], .branch true 0⟩,
    ⟨3, (), [], .branch false 7⟩]

theorem loopAndLeave_edges :
    loopAndLeave ≠ [] ∧ (loopAndLeave.map (·.offset)).Nodup ∧
    (∀ i ∈ loopAndLeave, ∀ c t, i.branch? = some (c, t) →
      t ∈ (Program.ofList loopAndLeave).labels) ∧
    ∃ g, FlowGraph.build (Program.ofList loopAndLeave).labels loopAndLeave = .ok g ∧
      ∀ k m i j, loopAndLeave[k]? = some i → loopAndLeave[m]? = some j →
        ((Program.ofList loopAndLeave).CanFollow k m ↔
          (∃ q ∈ g.blocksInOrder, ∃ l, q.2.instructions[l]? = some i ∧
            q.2.instructions[l + 1]? = some j) ∨
          ∃ q ∈ g.blocksInOrder, ∃ q' ∈ g.blocksInOrder, q.2.instructions.back? = some i ∧
            q'.2.instructions[0]? = some j ∧ q'.1 ∈ g.successors q.1) := by
  have hne : loopAndLeave ≠ [] := by decide
  have hdistinct : (loopAndLeave.map (·.offset)).Nodup := by decide
  have hlabels : ∀ i ∈ loopAndLeave, ∀ c t, i.branch? = some (c, t) →
      t ∈ (Program.ofList loopAndLeave).labels :=
    fun i hi c _ hb => Program.mem_labels.2 ⟨i, by rwa [Program.instructions_ofList], c, hb⟩
  obtain ⟨g, hg, -, -, -, hfollow⟩ := build_edges_are_control_flow hne hdistinct hlabels
  exact ⟨hne, hdistinct, hlabels, g, hg, hfollow⟩

end SingleAssignment
