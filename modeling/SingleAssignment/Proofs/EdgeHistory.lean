import Mathlib.Data.List.Nodup
import SingleAssignment.Proofs.Adjacency

/-!
# What any history of operations leaves in a graph

A graph grows by operations that add nodes and edges and may be mixed with updates of payloads.  The
edges in it are those of the calls that were answered with `true`, in the order of the calls, and
everything that can be asked about edges can be read off that list.

* `OrderedGraph.Operation` — one operation; `performed` runs a list of them, `added` collects the
  edges of the calls that were answered with `true`.
* `OrderedGraph.Grown` — the invariant; `Grown.after` keeps it along one operation and
  `Grown.performed` along a history.
* `OrderedGraph.HoldsEdges` — all answers about edges, read off the list of edges added.
* `OrderedGraph.operations_hold_edges` — **after any history the graph holds the edges that the
  history has added.**
-/

namespace SingleAssignment

namespace OrderedGraph

variable {ν ε : Type}

/-- One operation on a graph. -/
inductive Operation (ν ε : Type) where
  | addNode (data : ν)
  | addEdge (source target : Node) (label : ε)
  | updateNode (n : Node) (f : ν → ν)
  | updateNodes (f : (k : Nat) → Vector ν k → Vector ν k)

namespace Operation

/-- Whether the operation adds a node. -/
def isAddNode : Operation ν ε → Bool
  | .addNode _ => true
  | _ => false

/-- Whether the operation updates payloads only. -/
def isUpdate : Operation ν ε → Bool
  | .updateNode _ _ => true
  | .updateNodes _ => true
  | _ => false

/-- The graph after an operation, whatever it answers. -/
def after (g : OrderedGraph ν ε) : Operation ν ε → OrderedGraph ν ε
  | .addNode data => (g.addNode data).2
  | .addEdge source target label =>
      match OrderedGraph.addEdge source target label g with
      | .ok _ g' => g'
      | .error _ g' => g'
  | .updateNode n f => g.modify n f
  | .updateNodes f => g.rewriteNodes f

/-- The edge of a call that is answered with `true`. -/
def edge? (g : OrderedGraph ν ε) : Operation ν ε → Option (Edge ε)
  | .addEdge source target label =>
      match OrderedGraph.addEdge source target label g with
      | .ok true _ => some ⟨source, target, label⟩
      | _ => none
  | _ => none

end Operation

/-- The graph after a history of operations. -/
def performed : List (Operation ν ε) → OrderedGraph ν ε → OrderedGraph ν ε
  | [], g => g
  | op :: ops, g => performed ops (op.after g)

/-- The edges of the calls that were answered with `true`, in the order of the calls. -/
def added : List (Operation ν ε) → OrderedGraph ν ε → List (Edge ε)
  | [], _ => []
  | op :: ops, g => (op.edge? g).toList ++ added ops (op.after g)

/-! ## The invariant -/

/-- The edge table is the list of the edges added, no two of them between the same nodes. -/
structure Grown (es : List (Edge ε)) (g : OrderedGraph ν ε) : Prop where
  linked : g.Linked
  edges : g.edges.toList = es
  distinct : (es.map fun e => (e.source, e.target)).Nodup

variable {es : List (Edge ε)} {g : OrderedGraph ν ε}

theorem Grown.empty : Grown [] (OrderedGraph.empty : OrderedGraph ν ε) :=
  ⟨Linked.empty, rfl, List.nodup_nil⟩

theorem Grown.mem_successors (h : Grown es g) {n m : Node} :
    m ∈ g.successors n ↔ ∃ e ∈ es, e.source = n ∧ e.target = m := by
  rw [h.linked.mem_successors, h.edges]

theorem Grown.pushEdge (h : Grown es g) {e : Edge ε} (hs : e.source < g.nodeCount)
    (ht : e.target < g.nodeCount) (hnew : e.target ∉ g.successors e.source) :
    Grown (es ++ [e]) (g.pushEdge e) := by
  refine ⟨h.linked.pushEdge hs ht, ?_, ?_⟩
  · simp [OrderedGraph.pushEdge, h.edges]
  · rw [List.map_append, List.nodup_append]
    refine ⟨h.distinct, List.nodup_singleton _, ?_⟩
    intro p hp q hq hpq
    obtain ⟨d, hd, rfl⟩ := List.mem_map.1 hp
    rw [List.map_singleton, List.mem_singleton] at hq
    obtain ⟨hsource, htarget⟩ := Prod.mk.inj (hpq.trans hq)
    exact hnew (h.mem_successors.2 ⟨d, hd, hsource, htarget⟩)

/-- The three answers of a call that adds an edge. -/
theorem addEdge_cases (g : OrderedGraph ν ε) (source target : Node) (label : ε) :
    (∃ fault, (g.nodeCount ≤ source ∨ g.nodeCount ≤ target) ∧
      addEdge source target label g = .error fault g) ∨
    (source < g.nodeCount ∧ target < g.nodeCount ∧ target ∈ g.successors source ∧
      addEdge source target label g = .ok false g) ∨
    (source < g.nodeCount ∧ target < g.nodeCount ∧ target ∉ g.successors source ∧
      addEdge source target label g = .ok true (g.pushEdge ⟨source, target, label⟩)) := by
  by_cases hs : source < g.nodeCount
  · by_cases ht : target < g.nodeCount
    · rw [addEdge_eq hs ht]
      by_cases hin : target ∈ g.successors source
      · exact .inr (.inl ⟨hs, ht, hin, if_pos hin⟩)
      · exact .inr (.inr ⟨hs, ht, hin, if_neg hin⟩)
    · refine .inl ⟨.graph (.missingTarget target g.nodeCount), .inr (Nat.le_of_not_lt ht), ?_⟩
      rw [addEdge, if_neg (Nat.not_le.2 hs), if_pos (Nat.le_of_not_lt ht)]
  · refine .inl ⟨.graph (.missingSource source g.nodeCount), .inl (Nat.le_of_not_lt hs), ?_⟩
    rw [addEdge, if_pos (Nat.le_of_not_lt hs)]

/-- A call that is refused or finds its edge present leaves the graph as it is. -/
theorem eq_of_addEdge {g' : OrderedGraph ν ε} {source target : Node} {label : ε}
    (hrun : (∃ fault, addEdge source target label g = .error fault g') ∨
      addEdge source target label g = .ok false g') : g' = g := by
  rcases addEdge_cases g source target label with ⟨_, -, he⟩ | ⟨-, -, -, he⟩ | ⟨-, -, -, he⟩
  all_goals
    rw [he] at hrun
    rcases hrun with ⟨fault, hrun⟩ | hrun <;> cases hrun
  all_goals rfl

/-- **One operation keeps the invariant**: it adds the edge of a call answered with `true`. -/
theorem Grown.after (h : Grown es g) (op : Operation ν ε) :
    Grown (es ++ (op.edge? g).toList) (op.after g) := by
  cases op with
  | addNode data =>
      refine (List.append_nil es).symm ▸ ?_
      exact ⟨h.linked.addNode data, h.edges, h.distinct⟩
  | addEdge source target label =>
      rw [Operation.edge?, Operation.after]
      rcases addEdge_cases g source target label with
        ⟨fault, -, he⟩ | ⟨-, -, -, he⟩ | ⟨hs, ht, hnew, he⟩
      · simpa only [he, Option.toList_none, List.append_nil] using h
      · simpa only [he, Option.toList_none, List.append_nil] using h
      · simpa only [he, Option.toList_some] using h.pushEdge hs ht hnew
  | updateNode n f =>
      refine (List.append_nil es).symm ▸ ?_
      exact ⟨h.linked.modify n f, h.edges, h.distinct⟩
  | updateNodes f =>
      refine (List.append_nil es).symm ▸ ?_
      exact ⟨h.linked.rewriteNodes f, h.edges, h.distinct⟩

/-- **A history keeps the invariant.** -/
theorem Grown.performed (h : Grown es g) (ops : List (Operation ν ε)) :
    Grown (es ++ added ops g) (performed ops g) := by
  induction ops generalizing es g with
  | nil => rwa [added, OrderedGraph.performed, List.append_nil]
  | cons op ops ih =>
      rw [added, OrderedGraph.performed, ← List.append_assoc]
      exact ih (h.after op)

/-! ## Answers about edges -/

/-- The two graphs have the same nodes, apart from their payloads, and the same edges. -/
structure SameEdges (g' g : OrderedGraph ν ε) : Prop where
  nodeCount : g'.nodeCount = g.nodeCount
  edges : g'.edges = g.edges
  outgoing : g'.outgoing = g.outgoing
  incoming : g'.incoming = g.incoming

/-- All answers about edges, where `es` are the edges added so far in the order of the calls. -/
structure HoldsEdges (es : List (Edge ε)) (g : OrderedGraph ν ε) : Prop where
  addEdge_fails : ∀ s t e, (∃ fault g', addEdge s t e g = .error fault g') ↔
    g.node? s = none ∨ g.node? t = none
  addEdge_failed : ∀ s t e fault g', addEdge s t e g = .error fault g' → g' = g
  addEdge_new : ∀ s t e, (∃ g', addEdge s t e g = .ok true g') ↔
    (g.node? s).isSome ∧ (g.node? t).isSome ∧ ∀ d ∈ es, ¬ (d.source = s ∧ d.target = t)
  addEdge_known : ∀ s t e g', addEdge s t e g = .ok false g' → g' = g
  edgeCount : g.edgeCount = es.length
  outgoingEdges : ∀ n, g.outgoingEdges n =
    (es.filter (·.source == n)).map fun e => (e.target, e.label)
  successors : ∀ n, g.successors n = (g.outgoingEdges n).map (·.1)
  predecessors : ∀ n, g.predecessors n = (es.filter (·.target == n)).map (·.source)
  unknown : ∀ n, g.node? n = none →
    g.outgoingEdges n = [] ∧ g.successors n = [] ∧ g.predecessors n = []
  nodup : ∀ n, (g.successors n).Nodup ∧ (g.predecessors n).Nodup
  mirrored : ∀ n m, m ∈ g.successors n ↔ n ∈ g.predecessors m
  /-- Every position that is stored is one of the edge table. -/
  inRange : ∀ row, row ∈ g.outgoing ∨ row ∈ g.incoming → ∀ q ∈ row, q < g.edgeCount
  /-- Every node has its two rows. -/
  rows : g.outgoing.size = g.nodeCount ∧ g.incoming.size = g.nodeCount
  update : ∀ op : Operation ν ε, op.isUpdate = true → (op.after g).SameEdges g

theorem node?_eq_none_iff {n : Node} : g.node? n = none ↔ g.nodeCount ≤ n :=
  Array.getElem?_eq_none_iff

theorem isSome_node?_iff {n : Node} : (g.node? n).isSome = true ↔ n < g.nodeCount := by
  rw [← Option.ne_none_iff_isSome, ne_eq, node?_eq_none_iff, Nat.not_le]

theorem addEdge_fails_iff (g : OrderedGraph ν ε) (s t : Node) (label : ε) :
    (∃ fault g', addEdge s t label g = .error fault g') ↔
      g.node? s = none ∨ g.node? t = none := by
  rw [node?_eq_none_iff, node?_eq_none_iff]
  rcases addEdge_cases g s t label with ⟨fault, hout, he⟩ | ⟨hs, ht, -, he⟩ | ⟨hs, ht, -, he⟩
  · exact ⟨fun _ => hout, fun _ => ⟨fault, g, he⟩⟩
  all_goals
    rw [he]
    refine ⟨fun ⟨_, _, h⟩ => (nomatch h), fun h => ?_⟩
    exact absurd h (not_or.2 ⟨Nat.not_le.2 hs, Nat.not_le.2 ht⟩)

theorem Operation.sameEdges_of_isUpdate {op : Operation ν ε} (h : op.isUpdate = true) :
    (op.after g).SameEdges g := by
  cases op with
  | addNode data => cases h
  | addEdge source target label => cases h
  | updateNode n f => exact ⟨nodeCount_modify g n f, rfl, rfl, rfl⟩
  | updateNodes f => exact ⟨nodeCount_rewriteNodes g f, rfl, rfl, rfl⟩

theorem Linked.edgesFrom_of_le (h : g.Linked) {n : Node} (hn : g.nodeCount ≤ n) :
    g.edgesFrom n = [] := by
  have hrow : g.outgoing[n]? = none := Array.getElem?_eq_none (h.size_outgoing ▸ hn)
  rw [edgesFrom, Array.getD_eq_getD_getElem?, hrow]
  rfl

theorem Linked.edgesInto_of_le (h : g.Linked) {n : Node} (hn : g.nodeCount ≤ n) :
    g.edgesInto n = [] := by
  have hrow : g.incoming[n]? = none := Array.getElem?_eq_none (h.size_incoming ▸ hn)
  rw [edgesInto, Array.getD_eq_getD_getElem?, hrow]
  rfl

theorem Linked.lt_of_mem_row (h : g.Linked) {row : Array Nat}
    (hrow : row ∈ g.outgoing ∨ row ∈ g.incoming) {q : Nat} (hq : q ∈ row) : q < g.edgeCount := by
  have hat : ∀ {table : Array (Array Nat)}, row ∈ table → ∃ n, table.getD n #[] = row := by
    intro table hmem
    obtain ⟨n, hn, rfl⟩ := Array.mem_iff_getElem.1 hmem
    exact ⟨n, by simp [Array.getD_eq_getD_getElem?, hn]⟩
  rcases hrow with hrow | hrow
  · obtain ⟨n, rfl⟩ := hat hrow
    exact h.outgoing_lt n q (Array.mem_toList_iff.2 hq)
  · obtain ⟨n, rfl⟩ := hat hrow
    exact h.incoming_lt n q (Array.mem_toList_iff.2 hq)

namespace Grown

theorem outgoingEdges_eq (h : Grown es g) (n : Node) :
    g.outgoingEdges n = (es.filter (·.source == n)).map fun e => (e.target, e.label) := by
  rw [OrderedGraph.outgoingEdges, h.linked.edgesFrom_eq, h.edges]

theorem predecessors_eq (h : Grown es g) (n : Node) :
    g.predecessors n = (es.filter (·.target == n)).map (·.source) := by
  rw [OrderedGraph.predecessors, h.linked.edgesInto_eq, h.edges]

/-- Edges that agree in one end differ in the other: pairing the other end with `n` gives back the
two ends of an edge. -/
theorem nodup_ends (h : Grown es g) {other : Edge ε → Node} {p : Edge ε → Bool}
    (pair : Node → Node × Node)
    (hpair : ∀ e, p e = true → pair (other e) = (e.source, e.target)) :
    ((es.filter p).map other).Nodup := by
  refine List.Nodup.of_map pair ?_
  have hends : ((es.filter p).map other).map pair =
      (es.filter p).map fun e => (e.source, e.target) := by
    rw [List.map_map]
    exact List.map_congr_left fun e he => hpair e (List.mem_filter.1 he).2
  rw [hends]
  exact h.distinct.sublist (List.filter_sublist.map _)

theorem nodup_successors (h : Grown es g) (n : Node) : (g.successors n).Nodup := by
  rw [OrderedGraph.successors, h.linked.edgesFrom_eq, h.edges]
  refine h.nodup_ends (fun m => (n, m)) fun e he => ?_
  rw [beq_iff_eq.1 he]

theorem nodup_predecessors (h : Grown es g) (n : Node) : (g.predecessors n).Nodup := by
  rw [h.predecessors_eq]
  refine h.nodup_ends (fun m => (m, n)) fun e he => ?_
  rw [beq_iff_eq.1 he]

theorem addEdge_new_iff (h : Grown es g) (s t : Node) (label : ε) :
    (∃ g', addEdge s t label g = .ok true g') ↔
      (g.node? s).isSome ∧ (g.node? t).isSome ∧ ∀ d ∈ es, ¬ (d.source = s ∧ d.target = t) := by
  have hfresh : t ∉ g.successors s ↔ ∀ d ∈ es, ¬ (d.source = s ∧ d.target = t) := by
    rw [h.mem_successors]
    exact ⟨fun hno d hd hends => hno ⟨d, hd, hends⟩, fun hno ⟨d, hd, hends⟩ => hno d hd hends⟩
  rw [isSome_node?_iff, isSome_node?_iff, ← hfresh]
  rcases addEdge_cases g s t label with ⟨fault, hout, he⟩ | ⟨-, -, hin, he⟩ | ⟨hs, ht, hnew, he⟩
  · rw [he]
    refine ⟨fun ⟨_, h⟩ => (nomatch h), fun ⟨hs, ht, _⟩ => ?_⟩
    exact absurd hout (not_or.2 ⟨Nat.not_le.2 hs, Nat.not_le.2 ht⟩)
  · rw [he]
    exact ⟨fun ⟨_, h⟩ => (nomatch h), fun ⟨_, _, hno⟩ => absurd hin hno⟩
  · exact ⟨fun _ => ⟨hs, ht, hnew⟩, fun _ => ⟨_, he⟩⟩

/-- **The invariant answers every question about edges.** -/
theorem holdsEdges (h : Grown es g) : HoldsEdges es g where
  addEdge_fails := addEdge_fails_iff g
  addEdge_failed := fun _ _ _ fault _ hrun => eq_of_addEdge (.inl ⟨fault, hrun⟩)
  addEdge_new := h.addEdge_new_iff
  addEdge_known := fun _ _ _ _ hrun => eq_of_addEdge (.inr hrun)
  edgeCount := by rw [← h.edges, Array.length_toList, OrderedGraph.edgeCount]
  outgoingEdges := h.outgoingEdges_eq
  successors := fun n => by
    rw [OrderedGraph.outgoingEdges, OrderedGraph.successors, List.map_map]
    rfl
  predecessors := h.predecessors_eq
  unknown := by
    intro n hn
    have hn := node?_eq_none_iff.1 hn
    rw [OrderedGraph.outgoingEdges, OrderedGraph.successors, OrderedGraph.predecessors,
      h.linked.edgesFrom_of_le hn, h.linked.edgesInto_of_le hn]
    exact ⟨rfl, rfl, rfl⟩
  nodup := fun n => ⟨h.nodup_successors n, h.nodup_predecessors n⟩
  mirrored := fun n m => by rw [h.linked.mem_successors, h.linked.mem_predecessors]
  inRange := fun _ hrow _ hq => h.linked.lt_of_mem_row hrow hq
  rows := ⟨h.linked.size_outgoing, h.linked.size_incoming⟩
  update := fun _ hop => Operation.sameEdges_of_isUpdate hop

end Grown

/-! ## Histories -/

theorem Operation.nodeCount_after (g : OrderedGraph ν ε) (op : Operation ν ε) :
    (op.after g).nodeCount = g.nodeCount + if op.isAddNode then 1 else 0 := by
  cases op with
  | addNode data => exact nodeCount_addNode g data
  | addEdge source target label =>
      rw [Operation.after]
      rcases addEdge_cases g source target label with
        ⟨fault, -, he⟩ | ⟨-, -, -, he⟩ | ⟨-, -, -, he⟩
      all_goals
        rw [he]
        rfl
  | updateNode n f => exact nodeCount_modify g n f
  | updateNodes f => exact nodeCount_rewriteNodes g f

theorem nodeCount_performed (ops : List (Operation ν ε)) (g : OrderedGraph ν ε) :
    (performed ops g).nodeCount = g.nodeCount + ops.countP Operation.isAddNode := by
  induction ops generalizing g with
  | nil => rfl
  | cons op ops ih =>
      rw [performed, ih, op.nodeCount_after, List.countP_cons]
      omega

/-- **After any history the graph holds the edges that the history has added**, and its nodes are
as many as the history has added. -/
theorem operations_hold_edges (ops : List (Operation ν ε)) :
    HoldsEdges (added ops .empty) (performed ops .empty) ∧
      ∀ n, ((performed ops .empty).node? n).isSome ↔ n < ops.countP Operation.isAddNode := by
  refine ⟨(Grown.empty.performed ops).holdsEdges, fun n => ?_⟩
  rw [isSome_node?_iff, nodeCount_performed]
  exact iff_of_eq (congrArg (n < ·) (Nat.zero_add _))

/-- A loop that is added twice with different labels, a call before its target exists and the same
call afterwards, with payload updates in between. -/
def tangled : List (Operation Nat Nat) :=
  [.addNode 7, .addEdge 0 0 1, .addEdge 0 0 2, .addEdge 0 1 3, .addNode 8, .updateNode 0 (· + 1),
    .addEdge 1 0 4, .addEdge 0 1 5, .updateNodes fun _ payloads => payloads.reverse]

theorem tangled_holds_edges :
    added tangled .empty = [⟨0, 0, 1⟩, ⟨1, 0, 4⟩, ⟨0, 1, 5⟩] ∧
      (performed tangled .empty).nodes = #[8, 8] ∧
      HoldsEdges [⟨0, 0, 1⟩, ⟨1, 0, 4⟩, ⟨0, 1, 5⟩] (performed tangled .empty) := by
  have hadded : added tangled .empty = [⟨0, 0, 1⟩, ⟨1, 0, 4⟩, ⟨0, 1, 5⟩] := by decide +kernel
  exact ⟨hadded, by decide +kernel, hadded ▸ (operations_hold_edges tangled).1⟩

end OrderedGraph

end SingleAssignment
