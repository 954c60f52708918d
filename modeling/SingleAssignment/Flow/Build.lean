import SingleAssignment.Code.Program
import SingleAssignment.Flow.Graph

/-!
# From instructions to a flow graph

One scan over the instructions cuts them into blocks and links the blocks.  A new block starts after
a branch and at every label; a branch links the current block to the block at its target, which is
created if the offset has not been seen, and the current block is linked to the next one unless an
unconditional branch ends it.

* `Scan` — the graph under construction and the position of the scan.
* `Scan.step` — one instruction.
* `FlowGraph.build` — the whole scan for any set of labels, `FlowGraph.ofProgram` for the labels of
  a program.
-/

namespace SingleAssignment

/-- A flow graph under construction. -/
structure Scan (τ : Type) where
  graph : OrderedGraph (Block τ) EdgeKind
  nodeAt : Std.TreeMap Offset Node
  /-- The blocks entered so far. -/
  order : Array Node
  /-- The block that takes the next instruction. -/
  current : Node
  /-- The condition flag of the last instruction, if it is a branch. -/
  lastBranch : Option Bool
  /-- Offsets of the instructions so far. -/
  seen : Std.TreeSet Offset
  /-- Offset and target of the branches so far. -/
  branches : Array (Offset × Offset)

namespace Scan

variable {τ : Type}

/-- The scan before the first instruction, with the entry block at `offset`. -/
def start (offset : Offset) : Scan τ :=
  let (entry, graph) := OrderedGraph.empty.addNode (Block.empty offset)
  { graph
    nodeAt := (∅ : Std.TreeMap Offset Node).insert offset entry
    order := #[entry]
    current := entry
    lastBranch := none
    seen := ∅
    branches := #[] }

/-- The node of the block at an offset, created if there is none. -/
def blockAt (offset : Offset) (s : Scan τ) : Node × Scan τ :=
  match s.nodeAt[offset]? with
  | some n => (n, s)
  | none =>
      let (n, graph) := s.graph.addNode (Block.empty offset)
      (n, { s with graph, nodeAt := s.nodeAt.insert offset n })

/-- Link the current block to `target`. -/
def link (target : Node) (kind : EdgeKind) (s : Scan τ) : Except Fault (Scan τ) :=
  match OrderedGraph.addEdge s.current target kind s.graph with
  | .ok _ graph => .ok { s with graph }
  | .error e _ => .error e

/-- The transfer from the current block to the block that starts after it. -/
def onward? (s : Scan τ) : Option EdgeKind :=
  match s.lastBranch with
  | none => some .fallThrough
  | some true => some .conditionalFalse
  | some false => none

/-- Leave the current block for the block at `offset`. -/
def enter (offset : Offset) (s : Scan τ) : Except Fault (Scan τ) := do
  let (n, s) := s.blockAt offset
  let s ← match s.onward? with
    | some kind => s.link n kind
    | none => pure s
  return { s with order := s.order.push n, current := n }

/-- Follow the branch of an instruction, if it is one. -/
def follow (i : Instruction τ) (s : Scan τ) : Except Fault (Scan τ) :=
  match i.branch? with
  | none => pure { s with lastBranch := none }
  | some (conditional, target) => do
      let (n, s) := s.blockAt target
      let s ← s.link n (.ofBranch conditional)
      return { s with
        branches := s.branches.push (i.offset, target)
        lastBranch := some conditional }

/-- The check that the current block is in the graph. -/
def site : Site := ⟨"src/analysis/cfg/graph.rs", 161⟩

/-- Put an instruction into the current block. -/
def place (i : Instruction τ) (s : Scan τ) : Except Fault (Scan τ) :=
  if s.current < s.graph.nodeCount then
    .ok { s with graph := s.graph.modify s.current (·.push i) }
  else .error (.invariantViolation (.missingCurrent s.current) site)

/-- Note the offset of an instruction, which must be new. -/
def note (offset : Offset) (s : Scan τ) : Except Fault (Scan τ) :=
  if s.seen.contains offset then .error (.duplicateOffset offset)
  else .ok { s with seen := s.seen.insert offset }

/-- The first instruction: it stays in the entry block. -/
def first (i : Instruction τ) (s : Scan τ) : Except Fault (Scan τ) := do
  let s ← s.note i.offset
  let s ← s.follow i
  s.place i

/-- Any later instruction: it starts a new block after a branch and at a label. -/
def step (labels : Std.TreeSet Offset) (s : Scan τ) (i : Instruction τ) :
    Except Fault (Scan τ) := do
  let s ← s.note i.offset
  let s ← if s.lastBranch.isSome || labels.contains i.offset then s.enter i.offset else pure s
  let s ← s.follow i
  s.place i

/-- Whether the block at the target of a branch was never entered. -/
def leavesProgram (s : Scan τ) (reached : BitSet) (target : Offset) : Except Fault Bool :=
  match s.nodeAt[target]? with
  | some n => (reached.contains n).map (!·)
  | none => .ok false

/-- The branches among those listed whose target block was never entered. -/
def danglingAmong (s : Scan τ) (reached : BitSet) :
    List (Offset × Offset) → Except Fault (List (Offset × Offset))
  | [] => .ok []
  | b :: rest => do
      let leaves ← s.leavesProgram reached b.2
      let dangling ← s.danglingAmong reached rest
      return if leaves then b :: dangling else dangling

/-- The flow graph at the end of a scan: blocks that were never entered are dangling. -/
def finish (s : Scan τ) : Except Fault (FlowGraph τ) := do
  let reached ← BitSet.ofList s.graph.nodeCount s.order.toList
  let dangling ← s.danglingAmong reached s.branches.toList
  return {
    graph := s.graph
    nodeAt := s.nodeAt
    order := s.order
    reached
    dangling := dangling.toArray }

end Scan

namespace FlowGraph

variable {τ : Type}

/-- The flow graph of a list of instructions whose blocks start at the given labels. -/
def build (labels : Std.TreeSet Offset) : List (Instruction τ) → Except Fault (FlowGraph τ)
  | [] => .error .emptyProgram
  | i :: rest => do
      let s ← (Scan.start i.offset).first i
      let s ← rest.foldlM (Scan.step labels) s
      s.finish

/-- The flow graph of a program. -/
def ofProgram (p : Program τ) : Except Fault (FlowGraph τ) :=
  build p.labels p.instructions.toList

end FlowGraph

end SingleAssignment
