import SingleAssignment.Convert.Config
import SingleAssignment.Convert.Event
import SingleAssignment.Convert.Journal
import SingleAssignment.Flow.Build
import SingleAssignment.Flow.Reaching
import SingleAssignment.Flow.Reservation

/-!
# Conversion to static single assignment form

A conversion builds the flow graph of a program, gives every assignment a fresh id, and emits the
instructions in program order with every read redirected to the definition that reaches it.  Where
several definitions reach a read, a phi merges them under a fresh id of its own.

* `Run` — what a conversion has produced so far.  A fault leaves it as it stands, so events and
  records up to the fault are kept.
* `Run.renameBlocks` — fresh ids for all assignments.
* `Run.emitBlocks` — resolution of imports and emission of instructions.
* `convert` — the whole conversion; its result is a `Conversion`.
-/

namespace SingleAssignment

variable {τ : Type}

/-! ## The run of a conversion -/

/-- What a conversion has produced so far, and its supply of fresh ids. -/
structure Run (τ : Type) where
  supply : Supply
  events : Array (Event τ) := #[]
  journal : Array LogRecord := #[]
  stats : Stats := {}

/-- A step of a conversion. -/
abbrev RunM (τ : Type) := EStateM Fault (Run τ)

namespace Run

/-- Report an event. -/
def report (e : Event τ) : RunM τ Unit := modify fun r => { r with events := r.events.push e }

/-- Enter a record into the journal. -/
def log (entry : LogRecord) : RunM τ Unit :=
  modify fun r => { r with journal := r.journal.push entry }

/-- Update the counters. -/
def count (f : Stats → Stats) : RunM τ Unit := modify fun r => { r with stats := f r.stats }

/-- Use the supply. -/
def supplied {α : Type} (x : EStateM Fault Supply α) : RunM τ α := fun r =>
  match x r.supply with
  | .ok a s => .ok a { r with supply := s }
  | .error e s => .error e { r with supply := s }

/-- Report what each fresh id of a list of definitions stands for. -/
def reportDefinitions : List (Local × Local) → RunM τ Unit
  | [] => pure ()
  | (fresh, origin) :: rest => do
      report (.unalias fresh origin)
      reportDefinitions rest

/-- Report the definitions of the listed blocks, and count them. -/
def reportRenamed (definitions : Array (List (Local × Local))) : List Node → RunM τ Nat
  | [] => return 0
  | n :: rest => do
      let ds ← entryAt definitions n
      reportDefinitions ds
      return ds.length + (← reportRenamed definitions rest)

/-- Rename all blocks of a flow graph and report the definitions in program order. -/
def renameBlocks (g : FlowGraph τ) (schedule : Schedule) : RunM τ (FlowGraph τ) := do
  let reserved ← supplied (g.reserve g.order.toList (Array.replicate g.blockCount []))
  if schedule.isParallel then log (.renamingInParallel g.blockCount)
  match FlowGraph.renamePaired schedule.order reserved g with
  | .error e _ => throw e
  | .ok definitions g =>
      let total ← reportRenamed definitions g.order.toList
      log (.renamed total g.reachedCount)
      count fun s => { s with definitions := total }
      return g

/-- The id that an import of `x` into a block refers to: `x` itself if no definition reaches the
block, the definition if there is one, and a new phi if there are several.  Each search has fresh
marks; the marks of the search before would not change its answer. -/
def resolveImport (g : FlowGraph τ) (n : Node) (offset : Offset) (x : Local) : RunM τ Local := do
  match ← MonadExcept.ofExcept (g.reachingDefinitions n x) with
  | [] =>
      count fun s => { s with unresolvedImports := s.unresolvedImports + 1 }
      return x
  | [c] => return c.value
  | contributors =>
      let result ← supplied Supply.fresh
      report (.unalias result x)
      let phi : Phi := { offset, result, origin := x, contributors }
      log (.phiPlaced phi)
      report (.phi phi)
      count fun s => { s with phis := s.phis + 1 }
      return result

/-- Note an import that resolves to itself. -/
def noteUnresolved (b : Block τ) (offset : Offset) (x y : Local) : RunM τ Unit :=
  if y = x then log (.unresolved x offset b.offset) else return

/-- One operand: a local that the block does not import is already final; an import is resolved at
its first read and looked up in `resolved` from then on. -/
def resolveOperand (g : FlowGraph τ) (n : Node) (b : Block τ) (offset : Offset)
    (resolved : LocalMap) (x : Local) : RunM τ (Local × LocalMap) :=
  if b.imports x then
    match resolved[x]? with
    | some y => return (y, resolved)
    | none => do
        let y ← resolveImport g n offset x
        noteUnresolved b offset x y
        return (y, resolved.insert x y)
  else return (x, resolved)

/-- The operands of one instruction from left to right. -/
def resolveOperands (g : FlowGraph τ) (n : Node) (b : Block τ) (offset : Offset) :
    LocalMap → List Local → RunM τ (List Local × LocalMap)
  | resolved, [] => return ([], resolved)
  | resolved, x :: xs => do
      let (y, resolved) ← resolveOperand g n b offset resolved x
      let (ys, resolved) ← resolveOperands g n b offset resolved xs
      return (y :: ys, resolved)

/-- Emit the instructions of one block. -/
def emitInstructions (g : FlowGraph τ) (n : Node) (b : Block τ) :
    LocalMap → List (Instruction τ) → RunM τ Unit
  | _, [] => return
  | resolved, i :: rest => do
      let (operands, resolved) ← resolveOperands g n b i.offset resolved i.operands
      count (·.countEmitted i.kind)
      report (.instruction { i with operands })
      emitInstructions g n b resolved rest

/-- The check that a block to emit is there. -/
def emissionSite : Site := ⟨"src/analysis/ssa/converter.rs", 199⟩

/-- Emit the instructions of the listed blocks. -/
def emitBlocks (g : FlowGraph τ) : List Node → RunM τ Unit
  | [] => return
  | n :: rest => do
      let b ← g.blockOf emissionSite n
      emitInstructions g n b ∅ b.instructions.toList
      emitBlocks g rest

/-- Enter several records into the journal. -/
def logAll : List LogRecord → RunM τ Unit
  | [] => return
  | entry :: rest => do
      log entry
      logAll rest

/-- Refuse a flow graph with a dangling branch, if the configuration says so. -/
def checkDangling (config : Config) (g : FlowGraph τ) : RunM τ Unit :=
  match config.rejectDangling, g.dangling[0]? with
  | true, some (branch, target) => throw (.danglingBranchTarget branch target)
  | _, _ => return

/-- All steps of a conversion. -/
def convertProgram (config : Config) (schedule : Schedule) (p : Program τ) : RunM τ Stats := do
  let g ← MonadExcept.ofExcept (FlowGraph.ofProgram p)
  logAll g.records
  checkDangling config g
  count fun s => { s with
    blocks := g.blockCount
    reachedBlocks := g.reachedCount
    danglingTargets := g.dangling.size }
  let g ← renameBlocks g (config.scheduleFor schedule g.reachedCount)
  emitBlocks g g.order.toList
  let stats := (← get).stats
  log (.finished stats)
  return stats

end Run

/-! ## Conversion -/

/-- The result of a conversion.  On a fault, events and journal reach up to it. -/
structure Conversion (τ : Type) where
  outcome : Except Fault Stats
  events : Array (Event τ)
  journal : Array LogRecord

/-- Convert a program to static single assignment form. -/
def convert (config : Config) (schedule : Schedule) (p : Program τ) : Conversion τ :=
  match Run.convertProgram config schedule p { supply := .ofUsed p.locals } with
  | .ok stats r => ⟨.ok stats, r.events, r.journal⟩
  | .error e r => ⟨.error e, r.events, r.journal⟩

end SingleAssignment
