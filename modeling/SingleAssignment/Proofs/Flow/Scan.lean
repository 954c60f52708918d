import SingleAssignment.Proofs.BitSet
import SingleAssignment.Proofs.Flow.Layout
import SingleAssignment.Proofs.Flow.Leader
import SingleAssignment.Proofs.Outcome

/-!
# The scan lays out a flow graph

The scan of `FlowGraph.build` keeps a layout of the instructions it has seen.

* `Scan.blockAt_layout`, `Scan.link_spec` — finding a block and linking to it.
* `Scan.enter_layout`, `Scan.absorb_layout` — the two halves of a step: leave the current block, and
  take an instruction into it.
* `Scan.Inv` — the invariant after a list of instructions; `Scan.step_inv` keeps it, and
  `Scan.foldlM_cases` carries it along the scan up to a repeated offset.
* `FlowGraph.Laid` — the flow graph lays out the instructions: its blocks are entered where they
  have to be, and its dangling branches are those to blocks that are not.
* `FlowGraph.build_cases` — **a flow graph that was built lays out its instructions, and only an
  empty list or a repeated offset keeps it from being built.**
-/

namespace SingleAssignment

variable {τ : Type}

namespace Scan

variable {labels : Std.TreeSet Offset} {blocks front : List (Node × Block τ)}

/-! ## The parts of a step -/

theorem blockAt_layout {s : Scan τ} {met : List Offset}
    (h : Layout labels s.graph s.nodeAt blocks) (hmet : blockOffsets s.graph = met.eraseDups)
    (o : Offset) :
    ∃ n g nodeAt, s.blockAt o = (n, { s with graph := g, nodeAt := nodeAt }) ∧
      Layout labels g nodeAt blocks ∧ offsetAt g n = some o ∧
      blockOffsets g = (met ++ [o]).eraseDups := by
  have hknown : o ∈ met ↔ ∃ n, s.nodeAt[o]? = some n := by
    rw [← h.mem_blockOffsets_iff, hmet, List.mem_eraseDups]
  unfold blockAt
  split
  · rename_i n hn
    refine ⟨n, s.graph, s.nodeAt, rfl, h, (h.index o n).1 hn, ?_⟩
    rw [eraseDups_concat, if_pos (hknown.2 ⟨n, hn⟩), hmet]
  · rename_i hn
    refine ⟨s.graph.nodeCount, _, _, rfl, h.addNode hn, ?_, ?_⟩
    · show offsetAt (s.graph.addNode (Block.empty o)).2 s.graph.nodeCount = some o
      rw [offsetAt_addNode, if_pos rfl]
      rfl
    · rw [eraseDups_concat, if_neg (by rw [hknown, hn]; simp), ← hmet]
      simp [blockOffsets, Block.empty]

theorem link_spec {s : Scan τ} (hl : s.graph.Linked) (hc : s.current < s.graph.nodeCount)
    {m : Node} (hm : m < s.graph.nodeCount) (kind : EdgeKind) :
    ∃ g, s.link m kind = .ok { s with graph := g } ∧ g.Linked ∧ g.nodes = s.graph.nodes ∧
      edgeView g = edgeView s.graph ++
        if m ∈ s.graph.successors s.current then []
        else [(s.current, offsetAt s.graph m, kind)] := by
  unfold link
  rw [OrderedGraph.addEdge_eq hc hm]
  by_cases hin : m ∈ s.graph.successors s.current
  · rw [if_pos hin]
    exact ⟨s.graph, rfl, hl, rfl, by simp [hin]⟩
  · rw [if_neg hin]
    refine ⟨_, rfl, hl.pushEdge hc hm, rfl, ?_⟩
    rw [edgeView_pushEdge, if_neg hin]

/-- The current block is already linked to a node iff its own branch leads there. -/
theorem mem_successors_current {s : Scan τ} {b : Block τ}
    (h : Layout labels s.graph s.nodeAt (front ++ [(s.current, b)])) {m : Node} {o : Offset}
    (hm : offsetAt s.graph m = some o) :
    m ∈ s.graph.successors s.current ↔ ∃ k, (o, k) ∈ b.transfers none := by
  rw [h.linked.mem_successors, h.exists_edge_iff hm]
  have hd := h.nodup
  rw [List.map_append, List.nodup_append] at hd
  constructor
  · rintro ⟨k, hk⟩
    rw [layoutEdges_snoc, List.mem_append] at hk
    rcases hk with hk | hk
    · exact absurd rfl (hd.2.2 _ (layoutEdges_source hk) _ (by simp))
    · obtain ⟨t, ht, he⟩ := List.mem_map.1 hk
      cases he
      exact ⟨k, ht⟩
  · rintro ⟨k, hk⟩
    refine ⟨k, ?_⟩
    rw [layoutEdges_snoc]
    exact List.mem_append_right _ (List.mem_map.2 ⟨_, hk, rfl⟩)

/-- The condition flag of the last instruction of a block, if that is a branch. -/
def lastFlag (b : Block τ) : Option Bool := (b.instructions.back?.bind (·.branch?)).map (·.1)

/-- Linking the current block onward adds exactly its onward transfer. -/
theorem onward_spec {s : Scan τ} {b : Block τ}
    (h : Layout labels s.graph s.nodeAt (front ++ [(s.current, b)])) (hne : b.instructions ≠ #[])
    (hflag : s.lastBranch = lastFlag b) {m : Node} {o : Offset}
    (hm : offsetAt s.graph m = some o) :
    ∃ g, (match s.onward? with
        | some kind => s.link m kind
        | none => pure s) = .ok { s with graph := g } ∧ g.Linked ∧ g.nodes = s.graph.nodes ∧
      edgeView g = edgeView s.graph ++ (b.onward o).map fun (o, k) => (s.current, some o, k) := by
  have hc : s.current < s.graph.nodeCount := lt_of_node? (h.stored (s.current, b) (by simp))
  obtain ⟨bm, hbm, _⟩ := Option.map_eq_some_iff.1 hm
  have hlt := lt_of_node? hbm
  have hmem := mem_successors_current h hm
  obtain ⟨i, hi⟩ : ∃ i, b.instructions.back? = some i := by
    cases hb : b.instructions.back? with
    | none => exact absurd (by simpa using hb) hne
    | some i => exact ⟨i, rfl⟩
  cases hbr : i.branch? with
  | none =>
      have hon : s.onward? = some .fallThrough := by simp [onward?, hflag, lastFlag, hi, hbr]
      simp only [Block.transfers, hi, hbr] at hmem
      simp only [hon, Block.onward, hi, hbr]
      obtain ⟨g, hg, hl, hn, he⟩ := link_spec h.linked hc hlt .fallThrough
      refine ⟨g, hg, hl, hn, ?_⟩
      rw [he, if_neg (by rw [hmem]; simp), hm]
      rfl
  | some ct =>
      obtain ⟨conditional, target⟩ := ct
      simp only [Block.transfers, hi, hbr] at hmem
      cases conditional with
      | false =>
          have hon : s.onward? = none := by simp [onward?, hflag, lastFlag, hi, hbr]
          exact ⟨s.graph, by rw [hon]; rfl, h.linked, rfl, by simp [Block.onward, hi, hbr]⟩
      | true =>
          have hon : s.onward? = some .conditionalFalse := by
            simp [onward?, hflag, lastFlag, hi, hbr]
          simp only [hon, Block.onward, hi, hbr]
          obtain ⟨g, hg, hl, hn, he⟩ := link_spec h.linked hc hlt .conditionalFalse
          refine ⟨g, hg, hl, hn, ?_⟩
          rw [he, hm]
          by_cases ht : o = target
          · rw [if_pos (hmem.2 ⟨_, by rw [ht]; exact List.mem_cons_self⟩)]
            simp [ht]
          · rw [if_neg (by rw [hmem]; simp [ht])]
            simp [ht]

/-- Leaving the current block enters an empty block at the given offset. -/
theorem enter_layout {s : Scan τ} {b : Block τ} {met : List Offset}
    (h : Layout labels s.graph s.nodeAt (front ++ [(s.current, b)]))
    (hmet : blockOffsets s.graph = met.eraseDups) (hne : b.instructions ≠ #[])
    (hflag : s.lastBranch = lastFlag b) {o : Offset}
    (hnew : ∀ q ∈ front ++ [(s.current, b)], q.2.offset ≠ o) :
    ∃ s' bm, s.enter o = .ok s' ∧
      Layout labels s'.graph s'.nodeAt (front ++ [(s.current, b)] ++ [(s'.current, bm)]) ∧
      blockOffsets s'.graph = (met ++ [o]).eraseDups ∧ bm.instructions = #[] ∧ bm.offset = o ∧
      s'.order = s.order.push s'.current ∧ s'.seen = s.seen ∧ s'.branches = s.branches := by
  obtain ⟨m, g, nodeAt, hat, hlay, hm, hmet'⟩ := blockAt_layout h hmet o
  obtain ⟨bm, hbm, hbo⟩ := Option.map_eq_some_iff.1 hm
  have hout : m ∉ (front ++ [(s.current, b)]).map (·.1) := by
    intro hin
    obtain ⟨q, hq, rfl⟩ := List.mem_map.1 hin
    rw [hlay.stored q hq] at hbm
    cases hbm
    exact hnew q hq hbo
  have hempty := hlay.idle m bm hbm hout
  obtain ⟨g', hg', hl, hn, he⟩ :=
    onward_spec (s := { s with graph := g, nodeAt := nodeAt }) hlay hne hflag hm
  refine ⟨{ s with graph := g', nodeAt := nodeAt, order := s.order.push m, current := m }, bm, ?_,
    hlay.enter hbm hempty hout hl hn (by rw [hbo]; exact he), ?_, hempty, hbo, rfl, rfl, rfl⟩
  · unfold enter
    simp only [hat]
    generalize onward? { s with graph := g, nodeAt := nodeAt } = kind? at hg' ⊢
    cases kind? with
    | none =>
        cases hg'
        rfl
    | some kind =>
        simp only at hg' ⊢
        rw [hg']
        rfl
  · rw [← hmet']
    simp only [blockOffsets, hn]

/-- Following and placing an instruction takes it into the current block. -/
theorem absorb_layout {s : Scan τ} {b : Block τ} {i : Instruction τ} {met : List Offset}
    (h : Layout labels s.graph s.nodeAt (front ++ [(s.current, b)]))
    (hmet : blockOffsets s.graph = met.eraseDups)
    (hb : ∀ j ∈ b.instructions.toList, j.isBranch = false)
    (hhead : b.instructions = #[] → i.offset = b.offset)
    (hinner : b.instructions ≠ #[] → i.offset ∉ labels) :
    ∃ s', (s.follow i >>= fun t => t.place i) = .ok s' ∧
      Layout labels s'.graph s'.nodeAt (front ++ [(s'.current, b.push i)]) ∧
      blockOffsets s'.graph = (met ++ (i.branch?.map (·.2)).toList).eraseDups ∧
      s'.current = s.current ∧ s'.order = s.order ∧ s'.seen = s.seen ∧
      s'.lastBranch = i.branch?.map (·.1) ∧
      s'.branches.toList =
        s.branches.toList ++ (i.branch?.map fun t => (i.offset, t.2)).toList := by
  have hplace : ∀ (t : Scan τ), t.graph.node? s.current = some b → t.current = s.current →
      t.place i = .ok { t with graph := t.graph.modify s.current (·.push i) } := by
    intro t ht hc
    unfold place
    rw [hc, if_pos (lt_of_node? ht)]
  unfold follow
  cases hbr : i.branch? with
  | none =>
      have hstay := h.push hb hhead hinner h.linked rfl (by rw [Block.transfers_push, hbr]; simp)
      refine ⟨{ s with lastBranch := none, graph := s.graph.modify s.current (·.push i) }, ?_,
        hstay, ?_, rfl, rfl, rfl, rfl, by simp⟩
      · exact hplace _ (h.stored (s.current, b) (by simp)) rfl
      · rw [blockOffsets_push, hmet]
        simp
  | some ct =>
      obtain ⟨conditional, target⟩ := ct
      obtain ⟨m, g, nodeAt, hat, hlay, hm, hmet'⟩ := blockAt_layout h hmet target
      obtain ⟨bm, hbm, _⟩ := Option.map_eq_some_iff.1 hm
      have hcur := hlay.stored (s.current, b) (by simp)
      obtain ⟨g', hg', hl, hn, he⟩ := link_spec (s := { s with graph := g, nodeAt := nodeAt })
        hlay.linked (lt_of_node? hcur) (lt_of_node? hbm) (.ofBranch conditional)
      have hnot : m ∉ g.successors s.current := by
        rw [mem_successors_current (s := { s with graph := g, nodeAt := nodeAt }) hlay hm,
          Block.transfers_of_straight hb]
        simp
      have hview : edgeView g' = edgeView g ++
          ((b.push i).transfers none).map fun (o, k) => (s.current, some o, k) := by
        rw [he, if_neg hnot, hm, Block.transfers_push, hbr]
        rfl
      have hstay := hlay.push hb hhead hinner hl hn hview
      refine ⟨{ s with
          graph := g'.modify s.current (·.push i)
          nodeAt := nodeAt
          branches := s.branches.push (i.offset, target)
          lastBranch := some conditional }, ?_, hstay, ?_, rfl, rfl, rfl, rfl, by simp⟩
      · simp only [hat, hg']
        refine hplace _ ?_ rfl
        show g'.node? s.current = some b
        unfold OrderedGraph.node?
        rw [hn]
        exact hcur
      · rw [blockOffsets_push]
        simp only [blockOffsets, hn]
        exact hmet'

/-! ## The invariant of the scan -/

/-- The second of two blocks starts behind a branch or at a label. -/
def Succeeds (labels : Std.TreeSet Offset) (q q' : Node × Block τ) : Prop :=
  (lastFlag q.2).isSome = true ∨ q'.2.offset ∈ labels

/-- The scan after the instructions `done`: it has entered `front` and stands in the block `b`. -/
structure Inv (labels : Std.TreeSet Offset) (done : List (Instruction τ))
    (front : List (Node × Block τ)) (b : Block τ) (s : Scan τ) : Prop where
  layout : Layout labels s.graph s.nodeAt (front ++ [(s.current, b)])
  order : s.order.toList = (front ++ [(s.current, b)]).map (·.1)
  filled : ∀ q ∈ front ++ [(s.current, b)], q.2.instructions ≠ #[]
  contents : (front ++ [(s.current, b)]).flatMap (·.2.instructions.toList) = done
  led : (front ++ [(s.current, b)]).IsChain (Succeeds labels)
  met : blockOffsets s.graph = (offsetsMet labels done).eraseDups
  distinct : (done.map (·.offset)).Nodup
  seen : ∀ o, o ∈ s.seen ↔ o ∈ done.map (·.offset)
  lastBranch : s.lastBranch = lastFlag b
  branches : s.branches.toList = done.filterMap fun i => i.branch?.map fun t => (i.offset, t.2)

/-- Taking a new instruction into the current block, from a layout to the invariant. -/
theorem absorb_inv (done : List (Instruction τ)) (met : List Offset) {s : Scan τ} {b : Block τ}
    {i : Instruction τ} (h : Layout labels s.graph s.nodeAt (front ++ [(s.current, b)]))
    (hb : ∀ j ∈ b.instructions.toList, j.isBranch = false)
    (hhead : b.instructions = #[] → i.offset = b.offset)
    (hinner : b.instructions ≠ #[] → i.offset ∉ labels)
    (horder : s.order.toList = (front ++ [(s.current, b)]).map (·.1))
    (hfilled : ∀ q ∈ front, q.2.instructions ≠ #[])
    (hcontents : (front ++ [(s.current, b)]).flatMap (·.2.instructions.toList) = done)
    (hled : (front ++ [(s.current, b)]).IsChain (Succeeds labels))
    (hmet : blockOffsets s.graph = met.eraseDups)
    (hmet' : offsetsMet labels (done ++ [i]) = met ++ (i.branch?.map (·.2)).toList)
    (hdistinct : ((done ++ [i]).map (·.offset)).Nodup)
    (hseen : ∀ o, o ∈ s.seen ↔ o ∈ (done ++ [i]).map (·.offset))
    (hbranches : s.branches.toList =
      done.filterMap fun i => i.branch?.map fun t => (i.offset, t.2)) :
    ∃ s', (s.follow i >>= fun t => t.place i) = .ok s' ∧
      Inv labels (done ++ [i]) front (b.push i) s' := by
  obtain ⟨s', hs', hlay, hoff, hcur, hord, hsn, hlast, hbr⟩ :=
    absorb_layout h hmet hb hhead hinner
  refine ⟨s', hs', hlay, ?_, ?_, ?_, ?_, ?_, hdistinct, ?_, ?_, ?_⟩
  · rw [hord, horder, hcur]
    simp
  · intro q hq
    rcases List.mem_append.1 hq with hq | hq
    · exact hfilled q hq
    · rw [List.mem_singleton.1 hq]
      simp [Block.push]
  · rw [← hcontents]
    simp [Block.push]
  · -- whether a block may follow the one before depends on its offset only
    rw [List.isChain_append] at hled ⊢
    refine ⟨hled.1, by simp, fun q hq q' hq' => ?_⟩
    cases hq'
    exact hled.2.2 q hq (s.current, b) rfl
  · rw [hoff, hmet']
  · rw [hsn]
    exact hseen
  · rw [hlast]
    simp [lastFlag, Block.push]
  · rw [hbr, hbranches, List.filterMap_append]
    cases hi : i.branch? <;> simp [hi]

theorem Inv.straight_of_lastFlag_none {s : Scan τ} {b : Block τ} {done : List (Instruction τ)}
    (h : Inv labels done front b s) (hlast : lastFlag b = none) :
    ∀ j ∈ b.instructions.toList, j.isBranch = false := by
  intro j hj
  obtain ⟨init, l, hl⟩ : ∃ init l, b.instructions.toList = init ++ [l] :=
    List.eq_nil_or_concat _ |>.resolve_left (List.ne_nil_of_mem hj) |>.imp fun _ h => h.imp
      fun _ h => by simpa using h
  rw [hl, List.mem_append, List.mem_singleton] at hj
  rcases hj with hj | rfl
  · refine h.layout.straight (s.current, b) (by simp) j ?_
    rw [hl, List.dropLast_concat]
    exact hj
  · have hback : b.instructions.back? = some j := by
      rw [← Array.getLast?_toList, hl]
      simp
    unfold lastFlag at hlast
    rw [hback] at hlast
    simpa [Instruction.isBranch] using hlast

/-- The next instruction starts a block iff the scan leaves the current one for it. -/
theorem Inv.leads_iff {s : Scan τ} {b : Block τ} {done : List (Instruction τ)}
    (h : Inv labels done front b s) (i : Instruction τ) :
    Leads labels (done ++ [i]) done.length ↔
      (s.lastBranch.isSome || labels.contains i.offset) = true := by
  have hne : b.instructions.toList ≠ [] := by simpa using h.filled (s.current, b) (by simp)
  have hdone : done = front.flatMap (·.2.instructions.toList) ++ b.instructions.toList := by
    rw [← h.contents]
    simp
  have hlast : done.getLast? = b.instructions.back? := by
    rw [hdone, List.getLast?_append_of_ne_nil _ hne, Array.getLast?_toList]
  rw [leads_concat i (by rw [hdone]; simp [hne]), hlast, h.lastBranch, lastFlag, Bool.or_eq_true,
    Std.TreeSet.mem_iff_contains]
  cases b.instructions.back? <;> simp [Instruction.isBranch]

/-- **One step keeps the invariant**: a new offset is taken in, and only a repeated one fails. -/
theorem step_inv {s : Scan τ} {b : Block τ} {done : List (Instruction τ)}
    (h : Inv labels done front b s) (i : Instruction τ) :
    if i.offset ∈ done.map (·.offset) then s.step labels i = .error (.duplicateOffset i.offset)
    else ∃ s' front' b', s.step labels i = .ok s' ∧ Inv labels (done ++ [i]) front' b' s' := by
  split
  · rename_i hdup
    have hc : s.seen.contains i.offset = true := Std.TreeSet.mem_iff_contains.1 ((h.seen _).2 hdup)
    simp only [step, note, hc, if_true]
    rfl
  · rename_i hnew
    have hc : s.seen.contains i.offset = false := by
      rw [← Bool.not_eq_true, ← Std.TreeSet.mem_iff_contains, h.seen]
      exact hnew
    have hnote : s.note i.offset = .ok { s with seen := s.seen.insert i.offset } := by
      simp [note, hc]
    have hdistinct : ((done ++ [i]).map (·.offset)).Nodup := by
      rw [List.map_append, List.nodup_append]
      refine ⟨h.distinct, by simp, ?_⟩
      intro a ha c hc
      rw [List.mem_singleton.1 hc]
      rintro rfl
      exact hnew ha
    have hseen : ∀ o, o ∈ s.seen.insert i.offset ↔ o ∈ (done ++ [i]).map (·.offset) := by
      intro o
      rw [Std.TreeSet.mem_insert, Std.LawfulEqOrd.compare_eq_iff_eq, h.seen]
      simp only [List.map_append, List.mem_append, List.map_cons, List.map_nil, List.mem_singleton]
      exact ⟨fun h => h.elim (fun e => .inr e.symm) .inl, fun h => h.elim .inr fun e => .inl e.symm⟩
    by_cases hlead : (s.lastBranch.isSome || labels.contains i.offset) = true
    · -- a block that starts at this offset would hold an instruction seen before
      have hfresh : ∀ q ∈ front ++ [(s.current, b)], q.2.offset ≠ i.offset := by
        intro q hq heq
        obtain ⟨j, rest, hj⟩ := List.exists_cons_of_ne_nil
          (show q.2.instructions.toList ≠ [] by simpa using h.filled q hq)
        have hjo := h.layout.heads q hq j (by rw [hj]; rfl)
        refine hnew (List.mem_map.2 ⟨j, ?_, hjo.trans heq⟩)
        rw [← h.contents]
        exact List.mem_flatMap.2 ⟨q, hq, by rw [hj]; exact List.mem_cons_self⟩
      obtain ⟨t, bm, ht, hlay, hmet, hempty, hbo, hord, hsn, hbr⟩ :=
        enter_layout (s := { s with seen := s.seen.insert i.offset }) h.layout h.met
          (h.filled (s.current, b) (by simp)) h.lastBranch hfresh
      have hled : (front ++ [(s.current, b)] ++ [(t.current, bm)]).IsChain (Succeeds labels) := by
        rw [List.isChain_append]
        refine ⟨h.led, by simp, fun q hq q' hq' => ?_⟩
        cases hq'
        obtain rfl : (s.current, b) = q := by simpa using hq
        rw [Bool.or_eq_true, h.lastBranch, ← Std.TreeSet.mem_iff_contains, ← hbo] at hlead
        exact hlead
      obtain ⟨s', hs', hinv⟩ := absorb_inv done _ hlay (by simp [hempty])
        (fun _ => hbo.symm) (fun hne => absurd hempty hne)
        (by rw [hord]; simp [h.order]) h.filled
        (by rw [List.flatMap_append, h.contents]; simp [hempty]) hled hmet
        (by rw [offsetsMet_concat, if_pos ((h.leads_iff i).2 hlead)]) hdistinct
        (by rw [hsn]; exact hseen) (by rw [hbr]; exact h.branches)
      refine ⟨s', _, _, ?_, hinv⟩
      unfold step
      rw [hnote]
      show (if (s.lastBranch.isSome || labels.contains i.offset) = true then _ else _) = _
      rw [if_pos hlead, ht]
      exact hs'
    · have hno : lastFlag b = none ∧ i.offset ∉ labels := by
        rw [Bool.or_eq_true, not_or, h.lastBranch] at hlead
        exact ⟨by simpa using hlead.1, fun hin => hlead.2 (Std.TreeSet.mem_iff_contains.1 hin)⟩
      have hne := h.filled (s.current, b) (by simp)
      obtain ⟨s', hs', hinv⟩ := absorb_inv done _ (s := { s with seen := s.seen.insert i.offset })
        h.layout (h.straight_of_lastFlag_none hno.1) (fun he => absurd he hne) (fun _ => hno.2)
        h.order (fun q hq => h.filled q (List.mem_append_left _ hq)) h.contents h.led h.met
        (by rw [offsetsMet_concat, if_neg ((h.leads_iff i).not.2 hlead), List.append_nil]) hdistinct
        hseen h.branches
      refine ⟨s', _, _, ?_, hinv⟩
      unfold step
      rw [hnote]
      show (if (s.lastBranch.isSome || labels.contains i.offset) = true then _ else _) = _
      rw [if_neg hlead]
      exact hs'

/-! ## From the first instruction to the last -/

theorem start_layout (o : Offset) :
    Layout labels (start o : Scan τ).graph (start o : Scan τ).nodeAt [(0, Block.empty o)] := by
  have hempty : Layout labels (OrderedGraph.empty : OrderedGraph (Block τ) EdgeKind) ∅ [] := by
    refine ⟨OrderedGraph.Linked.empty, ?_, by simp, by simp, rfl, by simp, by simp, by simp, ?_⟩
    · intro o n
      simp [offsetAt, OrderedGraph.empty, OrderedGraph.node?]
    · intro n b hb
      simp [OrderedGraph.empty, OrderedGraph.node?] at hb
  have h := hempty.addNode (o := o) (by simp)
  refine ⟨h.linked, h.index, by simp, ?_, h.edges, ?_, ?_, ?_, ?_⟩
  · intro q hq
    rw [List.mem_singleton.1 hq]
    rfl
  · simp [Block.empty]
  · simp [Block.empty]
  · simp [Block.empty]
  · intro n b hb _
    exact h.idle n b hb (by simp)

theorem start_blockOffsets (o : Offset) :
    blockOffsets (start o : Scan τ).graph = [o].eraseDups := by
  simp [blockOffsets, start, OrderedGraph.addNode, OrderedGraph.empty, Block.empty,
    List.eraseDups_cons]

theorem first_inv (labels : Std.TreeSet Offset) (i : Instruction τ) :
    ∃ s', (start i.offset).first i = .ok s' ∧
      Inv labels [i] [] ((Block.empty i.offset).push i) s' := by
  have hnote : (start i.offset : Scan τ).note i.offset =
      .ok { (start i.offset : Scan τ) with seen := (∅ : Std.TreeSet Offset).insert i.offset } := by
    simp [note, start]
  obtain ⟨s', hs', hinv⟩ := absorb_inv [] [i.offset] (i := i)
    (s := { (start i.offset : Scan τ) with seen := (∅ : Std.TreeSet Offset).insert i.offset })
    (show Layout labels _ _ ([] ++ [(0, Block.empty i.offset)]) from start_layout i.offset)
    (by simp [Block.empty]) (fun _ => rfl) (fun hne => absurd rfl hne) rfl (by simp)
    (by simp [Block.empty]) (by simp) (by simp [start_blockOffsets])
    (by simp [offsetsMet, leads_zero]) (by simp)
    (fun o => by rw [Std.TreeSet.mem_insert, Std.LawfulEqOrd.compare_eq_iff_eq]; simp [eq_comm]) rfl
  refine ⟨s', ?_, hinv⟩
  unfold first
  rw [hnote]
  exact hs'

/-- **The scan over the rest**: it ends with the invariant, or at the first repeated offset. -/
theorem foldlM_cases : ∀ (rest done : List (Instruction τ)) {front : List (Node × Block τ)}
    {b : Block τ} {s : Scan τ}, Inv labels done front b s →
      (∃ s' front' b', rest.foldlM (step labels) s = .ok s' ∧
        Inv labels (done ++ rest) front' b' s') ∨
      ∃ before i after, rest = before ++ i :: after ∧
        ((done ++ before).map (·.offset)).Nodup ∧ i.offset ∈ (done ++ before).map (·.offset) ∧
        rest.foldlM (step labels) s = .error (.duplicateOffset i.offset)
  | [], done, front, b, s, h => .inl ⟨s, front, b, rfl, by rwa [List.append_nil]⟩
  | i :: rest, done, front, b, s, h => by
    have hstep := step_inv h i
    rw [List.foldlM_cons]
    split at hstep
    · rename_i hdup
      refine .inr ⟨[], i, rest, rfl, ?_, ?_, ?_⟩
      · rw [List.append_nil]
        exact h.distinct
      · rw [List.append_nil]
        exact hdup
      · rw [hstep]
        rfl
    · obtain ⟨t, front', b', ht, hinv⟩ := hstep
      rw [ht]
      rcases foldlM_cases rest (done ++ [i]) hinv with
        ⟨s', front'', b'', hs', hdone⟩ | ⟨before, j, after, rfl, hnodup, hdup, herr⟩
      · rw [List.append_assoc] at hdone
        exact .inl ⟨s', front'', b'', hs', hdone⟩
      · rw [List.append_assoc] at hnodup hdup
        exact .inr ⟨i :: before, j, after, rfl, hnodup, hdup, herr⟩

end Scan

/-! ## The flow graph -/

namespace FlowGraph

/-- Offset and target of the branches, in order. -/
def branchTargets (is : List (Instruction τ)) : List (Offset × Offset) :=
  is.filterMap fun i => i.branch?.map fun t => (i.offset, t.2)

/-- The flow graph is a layout of a list of instructions with distinct offsets. -/
structure Laid (labels : Std.TreeSet Offset) (is : List (Instruction τ)) (g : FlowGraph τ) :
    Prop where
  layout : Layout labels g.graph g.nodeAt g.blocksInOrder
  order : g.order.toList = g.blocksInOrder.map (·.1)
  filled : ∀ q ∈ g.blocksInOrder, q.2.instructions ≠ #[]
  contents : g.blocksInOrder.flatMap (·.2.instructions.toList) = is
  led : g.blocksInOrder.IsChain (Scan.Succeeds labels)
  met : blockOffsets g.graph = (offsetsMet labels is).eraseDups
  distinct : (is.map (·.offset)).Nodup
  capacity : g.reached.capacity = g.blockCount
  reached : ∀ n, g.reached.test n = true ↔ n ∈ g.order.toList
  dangling : g.dangling.toList = (branchTargets is).filter fun bt =>
    decide (bt.2 ∉ g.blocksInOrder.map (·.2.offset))

theorem mem_offsetsMet_of_branch {labels : Std.TreeSet Offset} {is : List (Instruction τ)}
    {bt : Offset × Offset} (h : bt ∈ branchTargets is) : bt.2 ∈ offsetsMet labels is := by
  obtain ⟨i, hi, hbt⟩ := List.mem_filterMap.1 h
  obtain ⟨t, ht, rfl⟩ := Option.map_eq_some_iff.1 hbt
  obtain ⟨k, hk⟩ := List.mem_iff_getElem?.1 hi
  refine List.mem_flatMap.2 ⟨(i, k), List.mem_zipIdx_iff_getElem?.2 hk, ?_⟩
  simp [ht]

theorem blocksInOrder_eq {g : FlowGraph τ} {blocks : List (Node × Block τ)}
    (horder : g.order.toList = blocks.map (·.1))
    (hstored : ∀ q ∈ blocks, g.graph.node? q.1 = some q.2) : g.blocksInOrder = blocks := by
  unfold blocksInOrder
  rw [horder, List.filterMap_map]
  have hself : ∀ q ∈ blocks, (fun q => ((g.block? q.1).map (q.1, ·))) q = some q := by
    intro q hq
    show (g.graph.node? q.1).map _ = _
    rw [hstored q hq]
    rfl
  exact (List.filterMap_congr hself).trans List.filterMap_some

/-- Branches are sorted out by what is known of their targets. -/
theorem danglingAmong_eq_ok {s : Scan τ} {reached : BitSet} {branches : List (Offset × Offset)}
    {leaves : Offset × Offset → Bool}
    (h : ∀ b ∈ branches, s.leavesProgram reached b.2 = .ok (leaves b)) :
    s.danglingAmong reached branches = .ok (branches.filter leaves) := by
  induction branches with
  | nil => rfl
  | cons b branches ih =>
      rw [Scan.danglingAmong, h b List.mem_cons_self,
        ih fun b' hb' => h b' (List.mem_cons_of_mem b hb'), List.filter_cons]
      cases leaves b <;> rfl

/-- The target of a branch has a block, which is found not to be entered exactly if it is not. -/
theorem leavesProgram_eq_ok {labels : Std.TreeSet Offset} {is : List (Instruction τ)}
    {front : List (Node × Block τ)} {b : Block τ} {s : Scan τ} (h : Scan.Inv labels is front b s)
    {reached : BitSet} (hcapacity : reached.capacity = s.graph.nodeCount)
    (htest : ∀ n, reached.test n = true ↔ n ∈ s.order.toList) {bt : Offset × Offset}
    (hbt : bt ∈ branchTargets is) :
    s.leavesProgram reached bt.2 =
      .ok (decide (bt.2 ∉ (front ++ [(s.current, b)]).map (·.2.offset))) := by
  obtain ⟨n, hn⟩ : ∃ n, s.nodeAt[bt.2]? = some n := by
    rw [← h.layout.mem_blockOffsets_iff, h.met, List.mem_eraseDups]
    exact mem_offsetsMet_of_branch hbt
  have hoffset := (h.layout.index _ _).1 hn
  have hlt : n < reached.capacity := by
    obtain ⟨c, hc, -⟩ := Option.map_eq_some_iff.1 hoffset
    exact hcapacity ▸ lt_of_node? hc
  have hentered : n ∈ s.order.toList ↔ bt.2 ∈ (front ++ [(s.current, b)]).map (·.2.offset) := by
    rw [h.order, List.mem_map, List.mem_map]
    constructor
    · rintro ⟨q, hq, rfl⟩
      rw [offsetAt, h.layout.stored q hq] at hoffset
      exact ⟨q, hq, Option.some.inj hoffset⟩
    · rintro ⟨q, hq, ho⟩
      refine ⟨q, hq, h.layout.node_unique ?_ hoffset⟩
      rw [offsetAt, h.layout.stored q hq, ← ho]
      rfl
  rw [Scan.leavesProgram, hn]
  simp only [BitSet.contains, hlt, if_true, Except.map]
  congr 1
  rw [Bool.eq_iff_iff, Bool.not_eq_true', ← Bool.not_eq_true, htest, hentered, decide_eq_true_iff]

theorem finish_eq_ok {s : Scan τ} {reached : BitSet} {dangling : List (Offset × Offset)}
    (hreached : BitSet.ofList s.graph.nodeCount s.order.toList = .ok reached)
    (hdangling : s.danglingAmong reached s.branches.toList = .ok dangling) :
    s.finish = .ok { graph := s.graph, nodeAt := s.nodeAt, order := s.order, reached,
                     dangling := dangling.toArray } := by
  rw [Scan.finish, hreached]
  simp only [bind, Except.bind, hdangling]
  rfl

/-- A scan over all instructions ends in a flow graph that lays them out. -/
theorem finish_laid {labels : Std.TreeSet Offset} {is : List (Instruction τ)}
    {front : List (Node × Block τ)} {b : Block τ} {s : Scan τ} (h : Scan.Inv labels is front b s) :
    ∃ g, s.finish = .ok g ∧ g.Laid labels is := by
  have hbound : ∀ n ∈ s.order.toList, n < s.graph.nodeCount := by
    intro n hn
    rw [h.order] at hn
    obtain ⟨q, hq, rfl⟩ := List.mem_map.1 hn
    exact lt_of_node? (h.layout.stored q hq)
  obtain ⟨reached, hreached, hcapacity, htest⟩ := BitSet.ofList_ok hbound
  have hdangling : s.danglingAmong reached s.branches.toList = .ok ((branchTargets is).filter
      fun bt => decide (bt.2 ∉ (front ++ [(s.current, b)]).map (·.2.offset))) := by
    rw [h.branches]
    exact danglingAmong_eq_ok fun bt hbt => leavesProgram_eq_ok h hcapacity htest hbt
  have hblocks : ∀ d, blocksInOrder
      { graph := s.graph, nodeAt := s.nodeAt, order := s.order, reached, dangling := d } =
        front ++ [(s.current, b)] :=
    fun d => blocksInOrder_eq h.order h.layout.stored
  refine ⟨_, finish_eq_ok hreached hdangling, ?_, ?_, ?_, ?_, ?_, h.met, h.distinct, hcapacity,
    htest, ?_⟩
  · rw [hblocks]
    exact h.layout
  · rw [hblocks]
    exact h.order
  · rw [hblocks]
    exact h.filled
  · rw [hblocks]
    exact h.contents
  · rw [hblocks]
    exact h.led
  · rw [hblocks]

/-- **The outcomes of building**: no instruction, a repeated offset, or a layout of the
instructions. -/
theorem build_cases (labels : Std.TreeSet Offset) (is : List (Instruction τ)) :
    (is = [] ∧ build labels is = .error .emptyProgram) ∨
    (∃ before i after, is = before ++ i :: after ∧ (before.map (·.offset)).Nodup ∧
      i.offset ∈ before.map (·.offset) ∧
      build labels is = .error (.duplicateOffset i.offset)) ∨
    ∃ g, build labels is = .ok g ∧ is ≠ [] ∧ g.Laid labels is := by
  cases is with
  | nil => exact .inl ⟨rfl, rfl⟩
  | cons i rest =>
      obtain ⟨s, hs, hinv⟩ := Scan.first_inv labels i
      rw [build, hs]
      rcases Scan.foldlM_cases rest [i] hinv with
        ⟨s', front, b, hs', hdone⟩ | ⟨before, j, after, rfl, hnodup, hdup, herr⟩
      · obtain ⟨g, hg, hlaid⟩ := finish_laid hdone
        refine .inr (.inr ⟨g, ?_, by simp, hlaid⟩)
        show (rest.foldlM (Scan.step labels) s >>= fun s => s.finish) = _
        rw [hs']
        exact hg
      · refine .inr (.inl ⟨i :: before, j, after, rfl, hnodup, hdup, ?_⟩)
        show (List.foldlM (Scan.step labels) s _ >>= fun s => s.finish) = _
        rw [herr]
        rfl

/-- Instructions with distinct offsets have a flow graph. -/
theorem exists_build (labels : Std.TreeSet Offset) {is : List (Instruction τ)} (hne : is ≠ [])
    (hdistinct : (is.map (·.offset)).Nodup) :
    ∃ g, build labels is = .ok g ∧ g.Laid labels is := by
  rcases build_cases labels is with
    ⟨hnil, -⟩ | ⟨before, i, after, rfl, -, hdup, -⟩ | ⟨g, hg, -, h⟩
  · exact absurd hnil hne
  · rw [List.map_append, List.map_cons, List.nodup_append] at hdistinct
    exact absurd rfl (hdistinct.2.2 _ hdup _ List.mem_cons_self)
  · exact ⟨g, hg, h⟩

/-- **Building lays out the instructions.** -/
theorem build_laid {labels : Std.TreeSet Offset} {is : List (Instruction τ)} {g : FlowGraph τ}
    (h : build labels is = .ok g) : g.Laid labels is := by
  rcases build_cases labels is with ⟨-, herr⟩ | ⟨_, _, _, -, -, -, herr⟩ | ⟨g', hok, -, hlaid⟩
  · rw [herr] at h
    cases h
  · rw [herr] at h
    cases h
  · rw [hok] at h
    cases h
    exact hlaid

end FlowGraph

end SingleAssignment
