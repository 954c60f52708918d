import SingleAssignment.BitSet
import SingleAssignment.Flow.Block
import SingleAssignment.Flow.EdgeKind
import SingleAssignment.OrderedGraph

/-!
# Flow graphs

A flow graph holds the blocks of a program and the ways control passes between them.  A block is
*reached* if it holds instructions of the program; a block that only exists because a branch names
its offset is *dangling*.

* `FlowGraph.order` — the reached blocks in program order, the entry block first.
* `FlowGraph.dangling` — offset and target of every branch to a dangling block, in program order.
-/

namespace SingleAssignment

/-- Blocks, control transfers and the program order of the reached blocks. -/
structure FlowGraph (τ : Type) where
  graph : OrderedGraph (Block τ) EdgeKind
  nodeAt : Std.TreeMap Offset Node
  order : Array Node
  reached : BitSet
  dangling : Array (Offset × Offset)

namespace FlowGraph

variable {τ : Type}

/-- The block where control starts. -/
def entry? (g : FlowGraph τ) : Option Node := g.order[0]?

/-- Number of blocks, dangling ones included. -/
def blockCount (g : FlowGraph τ) : Nat := g.graph.nodeCount

/-- Number of reached blocks. -/
def reachedCount (g : FlowGraph τ) : Nat := g.order.size

/-- Number of control transfers. -/
def edgeCount (g : FlowGraph τ) : Nat := g.graph.edgeCount

/-- The block of a node. -/
def block? (g : FlowGraph τ) (n : Node) : Option (Block τ) := g.graph.node? n

/-- The node of the block that starts at an offset. -/
def nodeAt? (g : FlowGraph τ) (o : Offset) : Option Node := g.nodeAt[o]?

/-- The block that starts at an offset. -/
def blockAt? (g : FlowGraph τ) (o : Offset) : Option (Block τ) := (g.nodeAt? o).bind g.block?

/-- The blocks in order of creation, each with its node. -/
def blocks (g : FlowGraph τ) : List (Node × Block τ) :=
  g.graph.nodes.toList.zipIdx.map fun (b, n) => (n, b)

/-- The reached blocks in program order, each with its node. -/
def blocksInOrder (g : FlowGraph τ) : List (Node × Block τ) :=
  g.order.toList.filterMap fun n => (g.block? n).map (n, ·)

/-- The blocks from which control passes to a node, in the order the transfers were found. -/
def predecessors (g : FlowGraph τ) (n : Node) : List Node := g.graph.predecessors n

/-- The blocks to which control passes from a node, in the order the transfers were found. -/
def successors (g : FlowGraph τ) (n : Node) : List Node := g.graph.successors n

/-- The transfers that leave a node. -/
def outgoingEdges (g : FlowGraph τ) (n : Node) : List (Node × EdgeKind) := g.graph.outgoingEdges n

/-- Whether a node exists and holds no instructions of the program. -/
def isDangling (g : FlowGraph τ) (n : Node) : Bool :=
  decide (n < g.blockCount) && !g.reached.test n

/-- The flow graph with one block replaced. -/
def setBlock (g : FlowGraph τ) (n : Node) (b : Block τ) : FlowGraph τ :=
  { g with graph := g.graph.modify n fun _ => b }

end FlowGraph

end SingleAssignment
