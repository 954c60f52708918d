import SingleAssignment.Code.Instruction

/-!
# Basic blocks

A block is a run of instructions with the offset where it starts.  Renaming fills in the two
tables at its borders:

* `Block.imported` — the locals that the block reads before it writes them.
* `Block.exported` — for each local that the block writes, the name of its last value.
-/

namespace SingleAssignment

/-- A run of instructions and what crosses its borders. -/
structure Block (τ : Type) where
  offset : Offset
  instructions : Array (Instruction τ) := #[]
  imported : LocalSet := ∅
  exported : LocalMap := ∅

namespace Block

variable {τ : Type}

/-- The block without instructions at an offset. -/
def empty (offset : Offset) : Block τ := { offset }

/-- Number of instructions. -/
def size (b : Block τ) : Nat := b.instructions.size

/-- Whether the block has no instructions. -/
def isEmpty (b : Block τ) : Bool := b.instructions.isEmpty

/-- The block with one more instruction at its end. -/
def push (b : Block τ) (i : Instruction τ) : Block τ :=
  { b with instructions := b.instructions.push i }

/-- Number of assignments in the block. -/
def assignmentCount (b : Block τ) : Nat := b.instructions.countP Instruction.isAssignment

/-- Whether the block reads `x` before writing it. -/
def imports (b : Block τ) (x : Local) : Bool := b.imported.contains x

/-- The name of the last value of `x` written in the block. -/
def exported? (b : Block τ) (x : Local) : Option Local := b.exported[x]?

/-- The block with both border tables replaced. -/
def setBorders (b : Block τ) (imported : LocalSet) (exported : LocalMap) : Block τ :=
  { b with imported, exported }

/-- The block with its instructions removed and its border tables kept. -/
def drain (b : Block τ) : Block τ := { b with instructions := #[] }

/-- The block with operand `j` of instruction `i` replaced, if there is such an operand. -/
def setOperand? (b : Block τ) (i j : Nat) (x : Local) : Option (Block τ) :=
  match b.instructions[i]? with
  | none => none
  | some ins =>
      if j < ins.operands.length then
        some { b with
          instructions :=
            b.instructions.setIfInBounds i { ins with operands := ins.operands.set j x } }
      else none

end Block

end SingleAssignment
