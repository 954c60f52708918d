import SingleAssignment.Convert.Stats
import SingleAssignment.Flow.Graph
import SingleAssignment.Phi

/-!
# Log records

Conversion keeps a journal of what it does.  A record is a value of its own type; its level and its
wording are read off it.
-/

namespace SingleAssignment

/-- How urgent a record is. -/
inductive Level where
  | warn
  | debug
  | trace
  deriving DecidableEq, Repr

/-- The name of a level. -/
def Level.text : Level → String
  | .warn => "warn"
  | .debug => "debug"
  | .trace => "trace"

/-- One entry of the journal. -/
inductive LogRecord where
  /-- A branch leads to an offset without an instruction. -/
  | danglingBranch (branch target : Offset)
  /-- A flow graph is complete. -/
  | graphBuilt (blocks reached edges : Nat)
  /-- Blocks are renamed in parallel. -/
  | renamingInParallel (blocks : Nat)
  /-- All blocks are renamed. -/
  | renamed (definitions reached : Nat)
  /-- A read of `x` at `offset` has no definition to refer to. -/
  | unresolved (x : Local) (offset block : Offset)
  /-- A phi is placed. -/
  | phiPlaced (phi : Phi)
  /-- A conversion is complete. -/
  | finished (stats : Stats)
  deriving DecidableEq, Repr

namespace LogRecord

/-- The level of a record. -/
def level : LogRecord → Level
  | .danglingBranch _ _ => .warn
  | .renamingInParallel _ | .phiPlaced _ => .trace
  | _ => .debug

/-- The wording of a record. -/
def text : LogRecord → String
  | .danglingBranch b t =>
      "Branch at " ++ Text.hexUpper b.toNat ++ " targets offset " ++ Text.hexUpper t.toNat ++
        " which holds no instruction"
  | .graphBuilt blocks reached edges =>
      "Built CFG with " ++ toString blocks ++ " blocks (" ++ toString reached ++ " reached, " ++
        toString edges ++ " edges)"
  | .renamingInParallel blocks => "Renaming " ++ toString blocks ++ " blocks in parallel"
  | .renamed definitions reached =>
      "Renamed " ++ toString definitions ++ " definitions across " ++ toString reached ++ " blocks"
  | .unresolved x offset block =>
      x.text ++ " read at " ++ Text.hexUpper offset.toNat ++
        " has no reaching definition in block at " ++ Text.hexUpper block.toNat
  | .phiPlaced phi => "Placed phi " ++ phi.text
  | .finished stats => "SSA conversion finished: " ++ stats.text

end LogRecord

/-- The journal of building a flow graph: one record for each dangling branch, then the counts. -/
def FlowGraph.records {τ : Type} (g : FlowGraph τ) : List LogRecord :=
  g.dangling.toList.map (fun (b, t) => .danglingBranch b t) ++
    [.graphBuilt g.blockCount g.reachedCount g.edgeCount]

end SingleAssignment
