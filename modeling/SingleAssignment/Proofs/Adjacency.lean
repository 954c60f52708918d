import Mathlib.Data.List.Basic
import SingleAssignment.OrderedGraph

/-!
# Adjacency is the edge table read from each side

The two adjacency tables of an `OrderedGraph` hold positions in its edge table.  `Linked` says that
they are exactly the positions of the edges that leave or enter a node, in ascending order, so that
every question about neighbours becomes a question about one list of edges.

* `Linked.addNode`, `Linked.pushEdge`, `Linked.modify`, `Linked.rewriteNodes` — every operation
  keeps it.
* `Linked.mem_successors`, `Linked.mem_predecessors` — neighbours are the ends of edges.
* `addEdge_eq` — what adding an edge does between nodes that exist.
* `edgesBySource` — all edges, in the order of their sources.
-/

namespace SingleAssignment

namespace OrderedGraph

variable {ν ε : Type}

/-- The adjacency tables agree with the edge table, and edges join existing nodes. -/
structure Linked (g : OrderedGraph ν ε) : Prop where
  size_outgoing : g.outgoing.size = g.nodeCount
  size_incoming : g.incoming.size = g.nodeCount
  outgoing_lt : ∀ n, ∀ q ∈ (g.outgoing.getD n #[]).toList, q < g.edges.size
  incoming_lt : ∀ n, ∀ q ∈ (g.incoming.getD n #[]).toList, q < g.edges.size
  edgesFrom_eq : ∀ n, g.edgesFrom n = g.edges.toList.filter (·.source == n)
  edgesInto_eq : ∀ n, g.edgesInto n = g.edges.toList.filter (·.target == n)
  endpoints : ∀ e ∈ g.edges.toList, e.source < g.nodeCount ∧ e.target < g.nodeCount

theorem Linked.empty : (OrderedGraph.empty : OrderedGraph ν ε).Linked := by
  constructor <;> simp [OrderedGraph.empty, nodeCount, edgesFrom, edgesInto, edgesAt]

/-! ## What each operation keeps -/

theorem getD_push_empty (t : Array (Array Nat)) (n : Nat) :
    (t.push #[]).getD n #[] = t.getD n #[] := by
  rw [Array.getD_eq_getD_getElem?, Array.getD_eq_getD_getElem?, Array.getElem?_push]
  split
  · rename_i h
    rw [Array.getElem?_eq_none (by omega)]
    rfl
  · rfl

theorem Linked.addNode {g : OrderedGraph ν ε} (h : g.Linked) (data : ν) :
    (g.addNode data).2.Linked := by
  have hout := getD_push_empty g.outgoing
  have hin := getD_push_empty g.incoming
  have ho : ∀ n, (g.addNode data).2.outgoing.getD n #[] = g.outgoing.getD n #[] := hout
  have hi : ∀ n, (g.addNode data).2.incoming.getD n #[] = g.incoming.getD n #[] := hin
  refine ⟨?_, ?_, ?_, ?_, ?_, ?_, ?_⟩
  · rw [nodeCount_addNode, ← h.size_outgoing]
    exact Array.size_push _
  · rw [nodeCount_addNode, ← h.size_incoming]
    exact Array.size_push _
  · intro n q hq
    rw [ho] at hq
    exact h.outgoing_lt n q hq
  · intro n q hq
    rw [hi] at hq
    exact h.incoming_lt n q hq
  · intro n
    unfold edgesFrom
    rw [ho]
    exact h.edgesFrom_eq n
  · intro n
    unfold edgesInto
    rw [hi]
    exact h.edgesInto_eq n
  · intro e he
    obtain ⟨hs, ht⟩ := h.endpoints e he
    rw [nodeCount_addNode]
    exact ⟨Nat.lt_succ_of_lt hs, Nat.lt_succ_of_lt ht⟩

/-- Payloads do not matter. -/
theorem Linked.withNodes {g : OrderedGraph ν ε} (h : g.Linked) {nodes : Array ν}
    (hsize : nodes.size = g.nodeCount) : ({ g with nodes } : OrderedGraph ν ε).Linked := by
  refine ⟨h.size_outgoing.trans hsize.symm, h.size_incoming.trans hsize.symm, h.outgoing_lt,
    h.incoming_lt, h.edgesFrom_eq, h.edgesInto_eq, fun e he => ?_⟩
  show e.source < nodes.size ∧ e.target < nodes.size
  rw [hsize]
  exact h.endpoints e he

theorem Linked.modify {g : OrderedGraph ν ε} (h : g.Linked) (n : Node) (f : ν → ν) :
    (g.modify n f).Linked :=
  h.withNodes (nodeCount_modify g n f)

theorem Linked.rewriteNodes {g : OrderedGraph ν ε} (h : g.Linked)
    (f : (k : Nat) → Vector ν k → Vector ν k) : (g.rewriteNodes f).Linked :=
  h.withNodes (nodeCount_rewriteNodes g f)

/-- Positions of the old edge table keep their meaning when an edge is pushed. -/
theorem edgesAt_pushEdge (g : OrderedGraph ν ε) (e : Edge ε) {ps : Array Nat}
    (h : ∀ q ∈ ps.toList, q < g.edges.size) : (g.pushEdge e).edgesAt ps = g.edgesAt ps := by
  unfold edgesAt
  refine List.filterMap_congr fun q hq => ?_
  show (g.edges.push e)[q]? = g.edges[q]?
  have := h q hq
  rw [Array.getElem?_push, if_neg (by omega)]

/-- One side of `pushEdge`: the table gains the new position in the row of one node. -/
theorem edgesAt_pushEdge_modify (g : OrderedGraph ν ε) (e : Edge ε) {table : Array (Array Nat)}
    {a n : Nat} (ha : a < table.size)
    (h : ∀ q ∈ (table.getD n #[]).toList, q < g.edges.size) :
    (g.pushEdge e).edgesAt ((table.modify a (·.push g.edges.size)).getD n #[]) =
      g.edgesAt (table.getD n #[]) ++ if a = n then [e] else [] := by
  rw [Array.getD_eq_getD_getElem?, Array.getElem?_modify]
  split
  · rename_i han
    subst han
    have hold := edgesAt_pushEdge g e h
    rw [Array.getD_eq_getD_getElem?, Array.getElem?_eq_getElem ha] at hold ⊢
    unfold edgesAt at hold ⊢
    simp only [Option.map_some, Option.getD_some, Array.toList_push,
      List.filterMap_append] at hold ⊢
    rw [hold]
    simp [pushEdge]
  · rw [← Array.getD_eq_getD_getElem?, edgesAt_pushEdge g e h, List.append_nil]

/-- The positions in the rows of a table stay below the edge count when an edge is pushed. -/
theorem lt_of_mem_modify {table : Array (Array Nat)} {a n bound : Nat}
    (h : ∀ q ∈ (table.getD n #[]).toList, q < bound) :
    ∀ q ∈ ((table.modify a (·.push bound)).getD n #[]).toList, q < bound + 1 := by
  intro q hq
  rw [Array.getD_eq_getD_getElem?, Array.getElem?_modify] at hq
  rw [Array.getD_eq_getD_getElem?] at h
  split at hq
  · cases hrow : table[n]? with
    | none =>
        rw [hrow] at hq
        simp at hq
    | some row =>
        rw [hrow] at hq h
        simp only [Option.map_some, Option.getD_some, Array.toList_push, List.mem_append,
          List.mem_singleton] at hq h
        rcases hq with hq | rfl
        · exact Nat.lt_succ_of_lt (h q hq)
        · exact Nat.lt_succ_self _
  · exact Nat.lt_succ_of_lt (h q hq)

theorem Linked.pushEdge {g : OrderedGraph ν ε} (h : g.Linked) {e : Edge ε}
    (hs : e.source < g.nodeCount) (ht : e.target < g.nodeCount) : (g.pushEdge e).Linked := by
  refine ⟨?_, ?_, ?_, ?_, ?_, ?_, ?_⟩
  · rw [nodeCount_pushEdge, ← h.size_outgoing]
    exact Array.size_modify
  · rw [nodeCount_pushEdge, ← h.size_incoming]
    exact Array.size_modify
  · intro n q hq
    have := lt_of_mem_modify (a := e.source) (h.outgoing_lt n) q hq
    simpa [OrderedGraph.pushEdge] using this
  · intro n q hq
    have := lt_of_mem_modify (a := e.target) (h.incoming_lt n) q hq
    simpa [OrderedGraph.pushEdge] using this
  · intro n
    have hrow := edgesAt_pushEdge_modify g e (h.size_outgoing ▸ hs) (h.outgoing_lt n)
    apply hrow.trans
    rw [← edgesFrom, h.edgesFrom_eq]
    simp [OrderedGraph.pushEdge, List.filter_append, List.filter_cons]
  · intro n
    have hrow := edgesAt_pushEdge_modify g e (h.size_incoming ▸ ht) (h.incoming_lt n)
    apply hrow.trans
    rw [← edgesInto, h.edgesInto_eq]
    simp [OrderedGraph.pushEdge, List.filter_append, List.filter_cons]
  · intro f hf
    simp only [OrderedGraph.pushEdge, Array.toList_push, List.mem_append, List.mem_singleton] at hf
    rcases hf with hf | rfl
    · exact h.endpoints f hf
    · exact ⟨hs, ht⟩

/-! ## Neighbours -/

theorem Linked.mem_successors {g : OrderedGraph ν ε} (h : g.Linked) {n m : Node} :
    m ∈ g.successors n ↔ ∃ e ∈ g.edges.toList, e.source = n ∧ e.target = m := by
  unfold successors
  rw [h.edgesFrom_eq]
  simp [and_assoc]

theorem Linked.mem_predecessors {g : OrderedGraph ν ε} (h : g.Linked) {n m : Node} :
    m ∈ g.predecessors n ↔ ∃ e ∈ g.edges.toList, e.source = m ∧ e.target = n := by
  unfold predecessors
  rw [h.edgesInto_eq]
  simp only [List.mem_map, List.mem_filter, beq_iff_eq]
  constructor
  · rintro ⟨e, ⟨he, ht⟩, hs⟩
    exact ⟨e, he, hs, ht⟩
  · rintro ⟨e, he, hs, ht⟩
    exact ⟨e, ⟨he, ht⟩, hs⟩

/-- Adding an edge between existing nodes succeeds and appends it unless it is already there. -/
theorem addEdge_eq {g : OrderedGraph ν ε} {n m : Node} (hn : n < g.nodeCount)
    (hm : m < g.nodeCount) (label : ε) :
    addEdge n m label g =
      if m ∈ g.successors n then .ok false g else .ok true (g.pushEdge ⟨n, m, label⟩) := by
  unfold addEdge
  rw [if_neg (Nat.not_le.2 hn), if_neg (Nat.not_le.2 hm)]
  simp only [List.contains_iff_mem]

/-! ## Edges by their source -/

/-- The edges in the order of their sources; those of one source in the order of the edge table. -/
def edgesBySource (g : OrderedGraph ν ε) : List (Edge ε) :=
  (List.range g.nodeCount).flatMap fun n => g.edges.toList.filter (·.source == n)

/-- **Every edge has its place among the edges by source, once.** -/
theorem Linked.perm_edgesBySource {g : OrderedGraph ν ε} (h : g.Linked) :
    g.edgesBySource.Perm g.edges.toList := by
  -- the edges with a source below `k`, for growing `k`
  have hbelow : ∀ k, ((List.range k).flatMap fun n => g.edges.toList.filter (·.source == n)).Perm
      (g.edges.toList.filter fun e => decide (e.source < k)) := by
    intro k
    induction k with
    | zero => simp
    | succ k ih =>
        rw [List.range_succ, List.flatMap_append, List.flatMap_singleton]
        have hsplit := List.filter_append_perm (fun e : Edge ε => decide (e.source < k))
          (g.edges.toList.filter fun e => decide (e.source < k + 1))
        refine ((ih.append_right _).trans (.of_eq ?_)).trans hsplit
        rw [List.filter_filter, List.filter_filter]
        congr 1
        · refine List.filter_congr fun e _ => ?_
          rw [Bool.eq_iff_iff, Bool.and_eq_true, decide_eq_true_iff, decide_eq_true_iff]
          exact ⟨fun hlt => ⟨hlt, Nat.lt_succ_of_lt hlt⟩, And.left⟩
        · refine List.filter_congr fun e _ => ?_
          rw [Bool.eq_iff_iff, Bool.and_eq_true, beq_iff_eq, Bool.not_eq_true',
            decide_eq_false_iff_not, decide_eq_true_iff, Nat.not_lt, Nat.lt_succ_iff]
          exact ⟨fun he => ⟨Nat.le_of_eq he.symm, Nat.le_of_eq he⟩,
            fun he => Nat.le_antisymm he.2 he.1⟩
  have hall : g.edges.toList.filter (fun e => decide (e.source < g.nodeCount)) = g.edges.toList :=
    List.filter_eq_self.2 fun e he => decide_eq_true (h.endpoints e he).1
  exact (hbelow g.nodeCount).trans (.of_eq hall)

end OrderedGraph

end SingleAssignment
