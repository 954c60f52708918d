import SingleAssignment.Flow.Graph
import SingleAssignment.Flow.Renaming
import SingleAssignment.Supply

/-!
# Reserving ids and renaming all blocks

The ids of every block are reserved in program order before any block is renamed.  From then on the
blocks are independent of each other and can be renamed in any order.  Ids and definitions stand in
tables at the position of their node; an access beyond the end of a table is a fault.

* `entryAt`, `withEntry` — access to a table.
* `FlowGraph.reserve` — ids for the listed blocks.
* `FlowGraph.renameAlong` — the blocks renamed in the order of any list of nodes.
* `FlowGraph.renamePaired` — all blocks that are paired with ids, in a given order.
* `FlowGraph.renameEach` — reserving and renaming interleaved, one block at a time.
-/

namespace SingleAssignment

variable {α σ τ : Type}

/-- The entry of a table at an index. -/
def entryAt (table : Array α) (n : Nat) : EStateM Fault σ α :=
  match table[n]? with
  | some a => pure a
  | none => throw .indexOutOfBounds

/-- The table with the entry at an index replaced. -/
def withEntry (table : Array α) (n : Nat) (a : α) : EStateM Fault σ (Array α) :=
  if n < table.size then pure (table.setIfInBounds n a) else throw .indexOutOfBounds

namespace FlowGraph

/-- The block of a node, looked up by a check. -/
def blockOf (g : FlowGraph τ) (site : Site) (n : Node) : EStateM Fault σ (Block τ) :=
  match g.block? n with
  | some b => pure b
  | none => throw (.invariantViolation (.missingBlock n) site)

/-- The check that a block to reserve ids for is there. -/
def reservationSite : Site := ⟨"src/analysis/ssa/converter.rs", 164⟩

/-- Ids for the assignments of the listed blocks, entered at the position of the node. -/
def reserve (g : FlowGraph τ) : List Node → Array (List Local) →
    EStateM Fault Supply (Array (List Local))
  | [], reserved => pure reserved
  | n :: rest, reserved => do
      let b ← g.blockOf reservationSite n
      let ids ← Supply.reserve b.assignmentCount
      g.reserve rest (← withEntry reserved n ids)

/-- Rename the listed blocks with the ids reserved for them.  The answer holds the definitions of
each block at the position of its node. -/
def renameAlong (reserved : Array (List Local)) : List Node → Array (List (Local × Local)) →
    EStateM Fault (FlowGraph τ) (Array (List (Local × Local)))
  | [], definitions => pure definitions
  | n :: rest, definitions => do
      let g ← get
      let b ← entryAt g.graph.nodes n
      let ids ← entryAt reserved n
      match Block.rename ids b with
      | .ok ds b =>
          set (g.setBlock n b)
          renameAlong reserved rest (← withEntry definitions n ds)
      | .error e b =>
          set (g.setBlock n b)
          throw e

/-- Rename all blocks, in an order that depends on their number.  Blocks and ids are paired as far as
both go, and the answer has one place for each pair. -/
def renamePaired (order : Nat → List Node) (reserved : Array (List Local)) :
    EStateM Fault (FlowGraph τ) (Array (List (Local × Local))) := do
  let pairs := min (← get).blockCount reserved.size
  renameAlong reserved (order pairs) (Array.replicate pairs [])

/-- Reserve and rename one block after the other, each as soon as its ids are there. -/
def renameEach : List Node → EStateM Fault (Supply × FlowGraph τ) (List (List (Local × Local)))
  | [] => pure []
  | n :: rest => do
      let (s, g) ← get
      let b ← entryAt g.graph.nodes n
      match Supply.reserve b.assignmentCount s with
      | .error e s => set (s, g); throw e
      | .ok ids s =>
          match Block.rename ids b with
          | .error e b => set (s, g.setBlock n b); throw e
          | .ok ds b =>
              set (s, g.setBlock n b)
              return ds :: (← renameEach rest)

end FlowGraph

end SingleAssignment
