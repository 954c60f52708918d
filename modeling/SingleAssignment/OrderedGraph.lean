import SingleAssignment.Fault

/-!
# Directed graphs that remember insertion order

Nodes are numbered in the order of their creation and carry a payload.  Between two nodes there is
at most one edge in each direction; an edge carries a label and keeps the label of its first
insertion.  Adjacency is stored on both sides as lists of positions in the edge table, so
successors, predecessors and outgoing edges come in the order in which the edges were added.

* `OrderedGraph.addNode`, `OrderedGraph.addEdge` — the two ways to grow a graph.
* `OrderedGraph.successors`, `OrderedGraph.predecessors`, `OrderedGraph.outgoingEdges` — adjacency,
  empty for numbers that are no nodes.
* `OrderedGraph.replace?`, `OrderedGraph.modify`, `OrderedGraph.rewriteNodes`,
  `OrderedGraph.mapNodes` — payload updates.
-/

namespace SingleAssignment

/-- A node, known by its position in the order of creation. -/
abbrev Node := Nat

/-- The text `n3` of node 3. -/
def Node.text (n : Node) : String := "n" ++ toString n

/-- The text `NodeId(3)` of node 3. -/
def Node.describe (n : Node) : String := "NodeId(" ++ toString n ++ ")"

/-- A labelled edge. -/
structure Edge (ε : Type) where
  source : Node
  target : Node
  label : ε
  deriving DecidableEq, Repr

/-- A directed graph with payloads `ν` on its nodes and labels `ε` on its edges. -/
structure OrderedGraph (ν ε : Type) where
  nodes : Array ν := #[]
  edges : Array (Edge ε) := #[]
  outgoing : Array (Array Nat) := #[]
  incoming : Array (Array Nat) := #[]

namespace OrderedGraph

variable {ν ε : Type}

/-- The graph without nodes. -/
def empty : OrderedGraph ν ε := {}

/-- Number of nodes. -/
def nodeCount (g : OrderedGraph ν ε) : Nat := g.nodes.size

/-- Number of edges. -/
def edgeCount (g : OrderedGraph ν ε) : Nat := g.edges.size

/-- Whether the graph has no nodes. -/
def isEmpty (g : OrderedGraph ν ε) : Bool := g.nodes.isEmpty

/-- The payload of a node. -/
def node? (g : OrderedGraph ν ε) (n : Node) : Option ν := g.nodes[n]?

/-- The edges at the listed positions of the edge table. -/
def edgesAt (g : OrderedGraph ν ε) (positions : Array Nat) : List (Edge ε) :=
  positions.toList.filterMap (g.edges[·]?)

/-- The edges that leave a node, in the order they were added. -/
def edgesFrom (g : OrderedGraph ν ε) (n : Node) : List (Edge ε) := g.edgesAt (g.outgoing.getD n #[])

/-- The edges that enter a node, in the order they were added. -/
def edgesInto (g : OrderedGraph ν ε) (n : Node) : List (Edge ε) := g.edgesAt (g.incoming.getD n #[])

/-- The targets of the edges that leave a node. -/
def successors (g : OrderedGraph ν ε) (n : Node) : List Node := (g.edgesFrom n).map (·.target)

/-- The sources of the edges that enter a node. -/
def predecessors (g : OrderedGraph ν ε) (n : Node) : List Node := (g.edgesInto n).map (·.source)

/-- Target and label of the edges that leave a node. -/
def outgoingEdges (g : OrderedGraph ν ε) (n : Node) : List (Node × ε) :=
  (g.edgesFrom n).map fun e => (e.target, e.label)

/-- Add a node; the answer is its number. -/
def addNode (g : OrderedGraph ν ε) (data : ν) : Node × OrderedGraph ν ε :=
  (g.nodes.size,
   { g with
     nodes := g.nodes.push data
     outgoing := g.outgoing.push #[]
     incoming := g.incoming.push #[] })

/-- The graph with an edge at the end of the edge table, entered on both sides. -/
def pushEdge (g : OrderedGraph ν ε) (e : Edge ε) : OrderedGraph ν ε :=
  let position := g.edges.size
  { g with
    edges := g.edges.push e
    outgoing := g.outgoing.modify e.source (·.push position)
    incoming := g.incoming.modify e.target (·.push position) }

/-- Add an edge between existing nodes.  The answer tells whether it is new: an edge between the
same two nodes stays as it is.  The source is checked before the target. -/
def addEdge (source target : Node) (label : ε) : EStateM Fault (OrderedGraph ν ε) Bool := fun g =>
  if g.nodeCount ≤ source then .error (.graph (.missingSource source g.nodeCount)) g
  else if g.nodeCount ≤ target then .error (.graph (.missingTarget target g.nodeCount)) g
  else if (g.successors source).contains target then .ok false g
  else .ok true (g.pushEdge ⟨source, target, label⟩)

/-- Replace the payload of a node; the answer is the payload it had. -/
def replace? (g : OrderedGraph ν ε) (n : Node) (data : ν) : Option (ν × OrderedGraph ν ε) :=
  (g.node? n).map fun old => (old, { g with nodes := g.nodes.setIfInBounds n data })

/-- Apply `f` to the payload of one node. -/
def modify (g : OrderedGraph ν ε) (n : Node) (f : ν → ν) : OrderedGraph ν ε :=
  { g with nodes := g.nodes.modify n f }

/-- Rewrite all payloads at once; `f` gets them in the order of the nodes and gives as many back. -/
def rewriteNodes (g : OrderedGraph ν ε) (f : (k : Nat) → Vector ν k → Vector ν k) :
    OrderedGraph ν ε :=
  { g with nodes := (f g.nodes.size g.nodes.toVector).toArray }

/-- Apply `f` to the payload of every node. -/
def mapNodes (g : OrderedGraph ν ε) (f : ν → ν) : OrderedGraph ν ε :=
  g.rewriteNodes fun _ payloads => payloads.map f

/-! ## Sizes and payloads after each operation -/

@[simp] theorem nodeCount_addNode (g : OrderedGraph ν ε) (data : ν) :
    (g.addNode data).2.nodeCount = g.nodeCount + 1 := by
  simp [addNode, nodeCount]

@[simp] theorem edgeCount_addNode (g : OrderedGraph ν ε) (data : ν) :
    (g.addNode data).2.edgeCount = g.edgeCount := rfl

theorem node?_addNode (g : OrderedGraph ν ε) (data : ν) (n : Node) :
    (g.addNode data).2.node? n = if n = g.nodeCount then some data else g.node? n := by
  unfold addNode node? nodeCount
  rw [Array.getElem?_push]

@[simp] theorem nodeCount_pushEdge (g : OrderedGraph ν ε) (e : Edge ε) :
    (g.pushEdge e).nodeCount = g.nodeCount := rfl

@[simp] theorem edgeCount_pushEdge (g : OrderedGraph ν ε) (e : Edge ε) :
    (g.pushEdge e).edgeCount = g.edgeCount + 1 := by
  simp [pushEdge, edgeCount]

@[simp] theorem node?_pushEdge (g : OrderedGraph ν ε) (e : Edge ε) (n : Node) :
    (g.pushEdge e).node? n = g.node? n := rfl

@[simp] theorem nodeCount_modify (g : OrderedGraph ν ε) (n : Node) (f : ν → ν) :
    (g.modify n f).nodeCount = g.nodeCount := by
  simp [modify, nodeCount]

@[simp] theorem edgesFrom_modify (g : OrderedGraph ν ε) (n m : Node) (f : ν → ν) :
    (g.modify n f).edgesFrom m = g.edgesFrom m := rfl

@[simp] theorem edgesInto_modify (g : OrderedGraph ν ε) (n m : Node) (f : ν → ν) :
    (g.modify n f).edgesInto m = g.edgesInto m := rfl

theorem node?_modify (g : OrderedGraph ν ε) (n m : Node) (f : ν → ν) :
    (g.modify n f).node? m = if n = m then (g.node? m).map f else g.node? m := by
  simp [modify, node?, Array.getElem?_modify]

theorem mapNodes_eq (g : OrderedGraph ν ε) (f : ν → ν) :
    g.mapNodes f = { g with nodes := g.nodes.map f } := rfl

@[simp] theorem nodeCount_rewriteNodes (g : OrderedGraph ν ε)
    (f : (k : Nat) → Vector ν k → Vector ν k) : (g.rewriteNodes f).nodeCount = g.nodeCount := by
  simp [rewriteNodes, nodeCount]

end OrderedGraph

end SingleAssignment
