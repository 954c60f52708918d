import SingleAssignment.Fault
import SingleAssignment.Flow.Block

/-!
# Renaming one block

Every assignment of a block gets an id of its own from a reserved list.  Reads that follow an
assignment in the same block are redirected to its id; all other reads keep their local, which the
block then imports.

* `Scope` — what is known while walking down a block: the locals imported so far and the current
  name of each local written so far.
* `renameFrom` — the walk over the instructions.
* `Block.rename` — the walk with its two failures: too few ids stop it half-way, ids left over are
  noticed at the end.  In both cases the instructions stay renamed as far as the walk came, and the
  border tables stay as they were.
-/

namespace SingleAssignment

/-- Imports and current names while walking down a block. -/
structure Scope where
  imported : LocalSet := ∅
  exported : LocalMap := ∅

namespace Scope

/-- Read a local: its current name if it has one, else itself as an import. -/
def read (s : Scope) (x : Local) : Local × Scope :=
  match s.exported[x]? with
  | some y => (y, s)
  | none => (x, { s with imported := s.imported.insert x })

/-- Read the operands of an instruction from left to right. -/
def readAll (s : Scope) : List Local → List Local × Scope
  | [] => ([], s)
  | x :: xs =>
      let (y, s) := s.read x
      let (ys, s) := s.readAll xs
      (y :: ys, s)

/-- Give `x` the current name `y`. -/
def define (s : Scope) (x y : Local) : Scope := { s with exported := s.exported.insert x y }

end Scope

/-- The outcome of walking down a block. -/
structure Renamed (τ : Type) where
  /-- The instructions, renamed as far as the ids lasted. -/
  instructions : List (Instruction τ)
  /-- Id and local of every renamed assignment, in order. -/
  definitions : List (Local × Local)
  /-- Imports and names at the end of the walk. -/
  scope : Scope
  /-- The ids left over, or `none` if an assignment found no id. -/
  leftOver : Option (List Local)

namespace Renamed

variable {τ : Type}

/-- Put an instruction in front. -/
def cons (i : Instruction τ) (r : Renamed τ) : Renamed τ :=
  { r with instructions := i :: r.instructions }

/-- Put a renamed assignment in front. -/
def consDefinition (i : Instruction τ) (id x : Local) (r : Renamed τ) : Renamed τ :=
  { r with
    instructions := { i with action := .assign id } :: r.instructions
    definitions := (id, x) :: r.definitions }

end Renamed

/-- Walk down the instructions: operands first, then the destination takes the next id.  An
assignment without an id keeps its destination, and nothing after it is touched. -/
def renameFrom {τ : Type} (s : Scope) (ids : List Local) : List (Instruction τ) → Renamed τ
  | [] => ⟨[], [], s, some ids⟩
  | i :: rest =>
      let (operands, s) := s.readAll i.operands
      let i := { i with operands }
      match i.action, ids with
      | .assign x, id :: ids => (renameFrom (s.define x id) ids rest).consDefinition i id x
      | .assign _, [] => ⟨i :: rest, [], s, none⟩
      | .effect, ids => (renameFrom s ids rest).cons i
      | .branch _ _, ids => (renameFrom s ids rest).cons i

/-- The check that there is an id for each assignment. -/
def shortageSite : Site := ⟨"src/analysis/ssa/rename.rs", 57⟩

/-- The check that no id is left over. -/
def excessSite : Site := ⟨"src/analysis/ssa/rename.rs", 70⟩

/-- Rename a block with one id for each of its assignments.  The answer lists id and local of every
assignment in order. -/
def Block.rename {τ : Type} (ids : List Local) : EStateM Fault (Block τ) (List (Local × Local)) :=
  fun b =>
    let r := renameFrom {} ids b.instructions.toList
    let b := { b with instructions := r.instructions.toArray }
    match r.leftOver with
    | none => .error (.invariantViolation (.reservationShort b.offset ids.length) shortageSite) b
    | some (_ :: _) =>
        .error (.invariantViolation
          (.reservationLong b.offset ids.length r.definitions.length) excessSite) b
    | some [] => .ok r.definitions (b.setBorders r.scope.imported r.scope.exported)

end SingleAssignment
