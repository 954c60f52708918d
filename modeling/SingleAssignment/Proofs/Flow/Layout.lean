import SingleAssignment.Flow.Build
import SingleAssignment.Proofs.Adjacency

/-!
# The layout of a flow graph

What it means that a graph of blocks, an index from offsets to nodes and a sequence of entered
blocks belong together.

* `Block.transfers` — the transfers of control that leave a block, read off its last instruction.
* `layoutEdges` — the transfers of a sequence of blocks, block by block.
* `Layout` — the edge table is exactly the transfers of the entered blocks, the index is exact,
  blocks are straight runs that no label enters in the middle, and blocks that were never entered
  are empty.

A layout grows in three ways: `Layout.addNode` makes room for a block, `Layout.enter` continues with
an empty block, `Layout.push` puts an instruction into the last block.
-/

namespace SingleAssignment

variable {τ : Type}

/-! ## Transfers of control -/

/-- Target offset and kind of the transfers that leave a block, where `next` is the offset of the
block behind it.  A conditional branch to the next block has one transfer only. -/
def Block.transfers (b : Block τ) (next : Option Offset) : List (Offset × EdgeKind) :=
  match b.instructions.back? with
  | none => []
  | some i =>
      match i.branch? with
      | none => next.toList.map (·, .fallThrough)
      | some (conditional, target) =>
          (target, .ofBranch conditional) ::
            if conditional ∧ next ≠ some target then next.toList.map (·, .conditionalFalse) else []

/-- The transfers of a sequence of blocks, where `next` is the offset behind the last one. -/
def layoutEdges (next : Option Offset) : List (Node × Block τ) → List (Node × Offset × EdgeKind)
  | [] => []
  | (n, b) :: rest =>
      (b.transfers ((rest.head?.map (·.2.offset)).or next)).map (n, ·) ++ layoutEdges next rest

theorem layoutEdges_append (next : Option Offset) (front back : List (Node × Block τ)) :
    layoutEdges next (front ++ back) =
      layoutEdges ((back.head?.map (·.2.offset)).or next) front ++ layoutEdges next back := by
  induction front with
  | nil => rfl
  | cons q rest ih =>
      rw [List.cons_append, layoutEdges, ih, layoutEdges, List.append_assoc]
      congr 3
      cases rest <;> simp

theorem layoutEdges_snoc (next : Option Offset) (blocks : List (Node × Block τ)) (n : Node)
    (b : Block τ) :
    layoutEdges next (blocks ++ [(n, b)]) =
      layoutEdges (some b.offset) blocks ++ (b.transfers next).map (n, ·) := by
  rw [layoutEdges_append]
  simp [layoutEdges]

theorem mem_layoutEdges {next : Option Offset} {blocks : List (Node × Block τ)} {n : Node}
    {o : Offset} {k : EdgeKind} :
    (n, o, k) ∈ layoutEdges next blocks ↔
      ∃ front b back, blocks = front ++ (n, b) :: back ∧
        (o, k) ∈ b.transfers ((back.head?.map (·.2.offset)).or next) := by
  induction blocks with
  | nil => simp [layoutEdges]
  | cons q rest ih =>
      rw [layoutEdges, List.mem_append, ih]
      constructor
      · rintro (h | ⟨front, b, back, rfl, h⟩)
        · obtain ⟨t, ht, he⟩ := List.mem_map.1 h
          cases he
          exact ⟨[], q.2, rest, rfl, ht⟩
        · exact ⟨q :: front, b, back, rfl, h⟩
      · rintro ⟨front, b, back, hq, h⟩
        cases front with
        | nil =>
            cases hq
            exact .inl (List.mem_map.2 ⟨_, h, rfl⟩)
        | cons _ front =>
            cases hq
            exact .inr ⟨front, b, back, rfl, h⟩

theorem layoutEdges_source {next : Option Offset} {blocks : List (Node × Block τ)} {n : Node}
    {o : Offset} {k : EdgeKind} (h : (n, o, k) ∈ layoutEdges next blocks) :
    n ∈ blocks.map (·.1) := by
  obtain ⟨front, b, back, rfl, _⟩ := mem_layoutEdges.1 h
  simp

/-- The transfer that only exists because a block stands behind this one. -/
def Block.onward (b : Block τ) (next : Offset) : List (Offset × EdgeKind) :=
  match b.instructions.back? with
  | none => []
  | some i =>
      match i.branch? with
      | none => [(next, .fallThrough)]
      | some (conditional, target) =>
          if conditional ∧ next ≠ target then [(next, .conditionalFalse)] else []

theorem Block.transfers_some (b : Block τ) (next : Offset) :
    b.transfers (some next) = b.transfers none ++ b.onward next := by
  unfold Block.transfers Block.onward
  split
  · rfl
  · split
    · rfl
    · simp

@[simp] theorem Block.transfers_of_back?_none {b : Block τ} (h : b.instructions.back? = none)
    (next : Option Offset) : b.transfers next = [] := by
  simp [Block.transfers, h]

theorem Block.transfers_push (b : Block τ) (i : Instruction τ) :
    (b.push i).transfers none =
      (i.branch?.map fun (conditional, target) =>
        (target, EdgeKind.ofBranch conditional)).toList := by
  unfold Block.transfers Block.push
  rw [Array.back?_push]
  simp only
  split <;> simp_all

/-- A block that ends in no branch has no transfer of its own. -/
theorem Block.transfers_of_straight {b : Block τ}
    (h : ∀ i ∈ b.instructions.toList, i.isBranch = false) : b.transfers none = [] := by
  unfold Block.transfers
  split
  · rfl
  · rename_i i hi
    have hb := h i (by simpa using Array.mem_of_back? hi)
    unfold Instruction.isBranch at hb
    split
    · rfl
    · rename_i hbr
      rw [hbr] at hb
      cases hb

/-! ## Graphs of blocks seen through offsets -/

/-- The offset of the block at a node. -/
def offsetAt (g : OrderedGraph (Block τ) EdgeKind) (n : Node) : Option Offset :=
  (g.node? n).map (·.offset)

/-- The edge table with the targets named by their offset. -/
def edgeView (g : OrderedGraph (Block τ) EdgeKind) : List (Node × Option Offset × EdgeKind) :=
  g.edges.toList.map fun e => (e.source, offsetAt g e.target, e.label)

theorem node?_of_lt {ν ε : Type} {g : OrderedGraph ν ε} {n : Node} (h : n < g.nodeCount) :
    ∃ b, g.node? n = some b :=
  ⟨g.nodes[n], Array.getElem?_eq_getElem h⟩

theorem lt_of_node? {ν ε : Type} {g : OrderedGraph ν ε} {n : Node} {b : ν}
    (h : g.node? n = some b) : n < g.nodeCount :=
  (Array.getElem?_eq_some_iff.1 h).1

theorem edgeView_congr {g g' : OrderedGraph (Block τ) EdgeKind} (hl : g.Linked)
    (he : g'.edges = g.edges) (ho : ∀ n < g.nodeCount, offsetAt g' n = offsetAt g n) :
    edgeView g' = edgeView g := by
  unfold edgeView
  rw [he]
  refine List.map_congr_left fun e hm => ?_
  rw [ho e.target (hl.endpoints e hm).2]

theorem edgeView_pushEdge (g : OrderedGraph (Block τ) EdgeKind) (e : Edge EdgeKind) :
    edgeView (g.pushEdge e) = edgeView g ++ [(e.source, offsetAt g e.target, e.label)] := by
  simp [edgeView, OrderedGraph.pushEdge, offsetAt, OrderedGraph.node?]

theorem offsetAt_addNode {g : OrderedGraph (Block τ) EdgeKind} {b : Block τ} {n : Node} :
    offsetAt (g.addNode b).2 n = if n = g.nodeCount then some b.offset else offsetAt g n := by
  unfold offsetAt
  rw [OrderedGraph.node?_addNode]
  split <;> rfl

theorem offsetAt_push (g : OrderedGraph (Block τ) EdgeKind) (i : Instruction τ) (n m : Node) :
    offsetAt (g.modify n (·.push i)) m = offsetAt g m := by
  unfold offsetAt
  rw [OrderedGraph.node?_modify]
  split
  · cases g.node? m with
    | none => rfl
    | some b => rfl
  · rfl

/-- The offsets of the blocks, in the order of their nodes. -/
def blockOffsets (g : OrderedGraph (Block τ) EdgeKind) : List Offset :=
  g.nodes.toList.map (·.offset)

theorem getElem?_blockOffsets (g : OrderedGraph (Block τ) EdgeKind) (n : Node) :
    (blockOffsets g)[n]? = offsetAt g n := by
  rw [blockOffsets, List.getElem?_map, Array.getElem?_toList]
  rfl

theorem mem_blockOffsets {g : OrderedGraph (Block τ) EdgeKind} {o : Offset} :
    o ∈ blockOffsets g ↔ ∃ n, offsetAt g n = some o := by
  rw [List.mem_iff_getElem?]
  simp only [getElem?_blockOffsets]

theorem blockOffsets_push (g : OrderedGraph (Block τ) EdgeKind) (i : Instruction τ) (n : Node) :
    blockOffsets (g.modify n (·.push i)) = blockOffsets g := by
  apply List.ext_getElem?
  intro m
  rw [getElem?_blockOffsets, getElem?_blockOffsets, offsetAt_push]

/-! ## Layouts -/

/-- Graph, index and entered blocks belong together. -/
structure Layout (labels : Std.TreeSet Offset) (g : OrderedGraph (Block τ) EdgeKind)
    (nodeAt : Std.TreeMap Offset Node) (blocks : List (Node × Block τ)) : Prop where
  linked : g.Linked
  index : ∀ o n, nodeAt[o]? = some n ↔ offsetAt g n = some o
  nodup : (blocks.map (·.1)).Nodup
  stored : ∀ q ∈ blocks, g.node? q.1 = some q.2
  edges : edgeView g = (layoutEdges none blocks).map fun (n, o, k) => (n, some o, k)
  heads : ∀ q ∈ blocks, ∀ i, q.2.instructions.toList.head? = some i → i.offset = q.2.offset
  straight : ∀ q ∈ blocks, ∀ i ∈ q.2.instructions.toList.dropLast, i.isBranch = false
  inner : ∀ q ∈ blocks, ∀ i ∈ q.2.instructions.toList.tail, i.offset ∉ labels
  idle : ∀ n b, g.node? n = some b → n ∉ blocks.map (·.1) → b.instructions = #[]

namespace Layout

variable {labels : Std.TreeSet Offset} {g : OrderedGraph (Block τ) EdgeKind}
  {nodeAt : Std.TreeMap Offset Node} {blocks : List (Node × Block τ)}

theorem node_unique (h : Layout labels g nodeAt blocks) {n m : Node} {o : Offset}
    (hn : offsetAt g n = some o) (hm : offsetAt g m = some o) : n = m := by
  have h1 := (h.index o n).2 hn
  have h2 := (h.index o m).2 hm
  rw [h1] at h2
  exact Option.some.inj h2

/-- **Neighbours are transfers**: an edge joins two nodes iff the first block transfers control to
the offset of the second. -/
theorem exists_edge_iff (h : Layout labels g nodeAt blocks) {n m : Node} {o : Offset}
    (hm : offsetAt g m = some o) :
    (∃ e ∈ g.edges.toList, e.source = n ∧ e.target = m) ↔
      ∃ k, (n, o, k) ∈ layoutEdges none blocks := by
  have hview : ∀ k, (n, o, k) ∈ layoutEdges none blocks ↔ (n, some o, k) ∈ edgeView g := by
    intro k
    rw [h.edges]
    constructor
    · intro hk
      exact List.mem_map.2 ⟨_, hk, rfl⟩
    · intro hk
      obtain ⟨⟨n', o', k'⟩, hmem, he⟩ := List.mem_map.1 hk
      simp only [Prod.mk.injEq, Option.some.injEq] at he
      obtain ⟨rfl, rfl, rfl⟩ := he
      exact hmem
  constructor
  · rintro ⟨e, he, rfl, rfl⟩
    refine ⟨e.label, (hview _).2 ?_⟩
    rw [← hm]
    exact List.mem_map.2 ⟨e, he, rfl⟩
  · rintro ⟨k, hk⟩
    obtain ⟨e, he, heq⟩ := List.mem_map.1 ((hview k).1 hk)
    simp only [Prod.mk.injEq] at heq
    obtain ⟨hs, ht, _⟩ := heq
    exact ⟨e, he, hs, h.node_unique ht hm⟩

theorem mem_blockOffsets_iff (h : Layout labels g nodeAt blocks) {o : Offset} :
    o ∈ blockOffsets g ↔ ∃ n, nodeAt[o]? = some n := by
  rw [mem_blockOffsets]
  exact exists_congr fun n => (h.index o n).symm

theorem nodup_blockOffsets (h : Layout labels g nodeAt blocks) : (blockOffsets g).Nodup := by
  refine List.pairwise_iff_getElem.2 fun n m hn hm hnm he => ?_
  have hon := getElem?_blockOffsets g n
  have hom := getElem?_blockOffsets g m
  rw [List.getElem?_eq_getElem hn] at hon
  rw [List.getElem?_eq_getElem hm, ← he] at hom
  exact Nat.ne_of_lt hnm (h.node_unique hon.symm hom.symm)

theorem addNode (h : Layout labels g nodeAt blocks) {o : Offset} (ho : nodeAt[o]? = none) :
    Layout labels (g.addNode (Block.empty o)).2 (nodeAt.insert o g.nodeCount) blocks := by
  have hnone : ∀ n b, g.node? n = some b → n ≠ g.nodeCount := by
    intro n b hb
    exact Nat.ne_of_lt (lt_of_node? hb)
  refine ⟨h.linked.addNode _, ?_, h.nodup, ?_, ?_, h.heads, h.straight, h.inner, ?_⟩
  · intro o' n
    rw [Std.TreeMap.getElem?_insert, offsetAt_addNode]
    by_cases hn : n = g.nodeCount
    · subst hn
      rw [if_pos rfl]
      have hout : offsetAt g g.nodeCount = none := by
        unfold offsetAt OrderedGraph.node? OrderedGraph.nodeCount
        simp
      constructor
      · intro hi
        split at hi
        · rename_i hc
          rw [Std.LawfulEqOrd.eq_of_compare hc]
          rfl
        · rw [h.index, hout] at hi
          cases hi
      · intro he
        have : o = o' := Option.some.inj he
        subst this
        simp
    · rw [if_neg hn]
      constructor
      · intro hi
        split at hi
        · exact absurd (Option.some.inj hi).symm hn
        · exact (h.index o' n).1 hi
      · intro he
        have hi := (h.index o' n).2 he
        have hne : o ≠ o' := by
          rintro rfl
          rw [ho] at hi
          cases hi
        rw [if_neg (fun hc => hne (Std.LawfulEqOrd.eq_of_compare hc)), hi]
  · intro q hq
    rw [OrderedGraph.node?_addNode, if_neg (hnone _ _ (h.stored q hq))]
    exact h.stored q hq
  · rw [← h.edges]
    refine edgeView_congr h.linked rfl fun n hn => ?_
    rw [offsetAt_addNode, if_neg (Nat.ne_of_lt hn)]
  · intro n b hb hn
    rw [OrderedGraph.node?_addNode] at hb
    split at hb
    · cases hb
      rfl
    · exact h.idle n b hb hn

/-- Continue with an empty block that was not entered before. -/
theorem enter {front : List (Node × Block τ)} {n m : Node} {b bm : Block τ}
    {g' : OrderedGraph (Block τ) EdgeKind} (h : Layout labels g nodeAt (front ++ [(n, b)]))
    (hm : g.node? m = some bm) (hempty : bm.instructions = #[])
    (hnew : m ∉ (front ++ [(n, b)]).map (·.1)) (hl : g'.Linked) (hnodes : g'.nodes = g.nodes)
    (he : edgeView g' = edgeView g ++ (b.onward bm.offset).map fun (o, k) => (n, some o, k)) :
    Layout labels g' nodeAt (front ++ [(n, b)] ++ [(m, bm)]) := by
  have hnode : ∀ k, g'.node? k = g.node? k := fun k => by
    unfold OrderedGraph.node?
    rw [hnodes]
  have hoff : ∀ k, offsetAt g' k = offsetAt g k := fun k => by
    unfold offsetAt
    rw [hnode]
  have hcases : ∀ {P : Node × Block τ → Prop}, (∀ q ∈ front ++ [(n, b)], P q) → P (m, bm) →
      ∀ q ∈ front ++ [(n, b)] ++ [(m, bm)], P q := by
    intro P hold hlast q hq
    rcases List.mem_append.1 hq with hq | hq
    · exact hold q hq
    · rw [List.mem_singleton.1 hq]
      exact hlast
  refine ⟨hl, ?_, ?_, ?_, ?_, ?_, ?_, ?_, ?_⟩
  · intro o k
    rw [hoff]
    exact h.index o k
  · rw [List.map_append, List.nodup_append]
    refine ⟨h.nodup, by simp, ?_⟩
    intro a ha c hc
    rw [List.mem_singleton.1 hc]
    rintro rfl
    exact hnew ha
  · refine hcases (fun q hq => ?_) ?_
    · rw [hnode]
      exact h.stored q hq
    · rw [hnode]
      exact hm
  · have hbm : bm.transfers none = [] := Block.transfers_of_back?_none (by rw [hempty]; rfl) none
    rw [he, h.edges, layoutEdges_snoc, layoutEdges_snoc, layoutEdges_snoc, Block.transfers_some,
      hbm]
    simp
  · exact hcases h.heads (by simp [hempty])
  · exact hcases h.straight (by simp [hempty])
  · exact hcases h.inner (by simp [hempty])
  · intro k c hc hk
    rw [hnode] at hc
    exact h.idle k c hc fun hin => hk (by rw [List.map_append]; exact List.mem_append_left _ hin)

/-- Put an instruction at the end of the last block. -/
theorem push {front : List (Node × Block τ)} {n : Node} {b : Block τ} {i : Instruction τ}
    {g' : OrderedGraph (Block τ) EdgeKind} (h : Layout labels g nodeAt (front ++ [(n, b)]))
    (hb : ∀ j ∈ b.instructions.toList, j.isBranch = false)
    (hhead : b.instructions = #[] → i.offset = b.offset)
    (hinner : b.instructions ≠ #[] → i.offset ∉ labels) (hl : g'.Linked)
    (hnodes : g'.nodes = g.nodes)
    (he : edgeView g' =
      edgeView g ++ ((b.push i).transfers none).map fun (o, k) => (n, some o, k)) :
    Layout labels (g'.modify n (·.push i)) nodeAt (front ++ [(n, b.push i)]) := by
  have hnode : ∀ k, g'.node? k = g.node? k := fun k => by
    unfold OrderedGraph.node?
    rw [hnodes]
  have hoff : ∀ k, offsetAt (g'.modify n (·.push i)) k = offsetAt g k := fun k => by
    rw [offsetAt_push]
    unfold offsetAt
    rw [hnode]
  have hmap : (front ++ [(n, b.push i)]).map (·.1) = (front ++ [(n, b)]).map (·.1) := by simp
  have hout : n ∉ front.map (·.1) := by
    intro hin
    have hd := h.nodup
    rw [List.map_append, List.nodup_append] at hd
    exact hd.2.2 n hin n (by simp) rfl
  have hlist : (b.push i).instructions.toList = b.instructions.toList ++ [i] := by
    simp [Block.push]
  have hcases : ∀ {P : Node × Block τ → Prop}, (∀ q ∈ front ++ [(n, b)], P q) → P (n, b.push i) →
      ∀ q ∈ front ++ [(n, b.push i)], P q := by
    intro P hold hlast q hq
    rcases List.mem_append.1 hq with hq | hq
    · exact hold q (List.mem_append_left _ hq)
    · rw [List.mem_singleton.1 hq]
      exact hlast
  have hself := h.stored (n, b) (by simp)
  refine ⟨hl.modify _ _, ?_, ?_, ?_, ?_, ?_, ?_, ?_, ?_⟩
  · intro o k
    rw [hoff]
    exact h.index o k
  · rw [hmap]
    exact h.nodup
  · intro q hq
    rw [OrderedGraph.node?_modify, hnode]
    rcases List.mem_append.1 hq with hfront | hlast
    · have hne : n ≠ q.1 := fun e => hout (e ▸ List.mem_map.2 ⟨q, hfront, rfl⟩)
      rw [if_neg hne]
      exact h.stored q (List.mem_append_left _ hfront)
    · rw [List.mem_singleton.1 hlast, if_pos rfl, hself]
      rfl
  · have hsame : edgeView (g'.modify n (·.push i)) = edgeView g' :=
      edgeView_congr hl rfl fun k _ => offsetAt_push g' i n k
    rw [hsame, he, h.edges, layoutEdges_snoc, layoutEdges_snoc, Block.transfers_of_straight hb]
    simp [Block.push]
  · refine hcases h.heads fun j hj => ?_
    rw [hlist, List.head?_append] at hj
    cases hbl : b.instructions.toList with
    | nil =>
        rw [hbl] at hj
        cases hj
        exact hhead (by simpa using hbl)
    | cons a rest =>
        rw [hbl] at hj
        exact h.heads (n, b) (by simp) j (by rw [hbl]; exact hj)
  · refine hcases h.straight fun j hj => hb j ?_
    rw [hlist, List.dropLast_concat] at hj
    exact hj
  · refine hcases h.inner fun j hj => ?_
    rw [hlist] at hj
    by_cases hbe : b.instructions = #[]
    · simp [hbe] at hj
    · rw [List.tail_append_of_ne_nil (by simpa using hbe)] at hj
      rcases List.mem_append.1 hj with hj | hj
      · exact h.inner (n, b) (by simp) j hj
      · rw [List.mem_singleton.1 hj]
        exact hinner hbe
  · intro k c hc hk
    rw [hmap] at hk
    rw [OrderedGraph.node?_modify, hnode] at hc
    have hne : n ≠ k := by
      rintro rfl
      exact hk (by simp)
    rw [if_neg hne] at hc
    exact h.idle k c hc hk

end Layout

end SingleAssignment
