import SingleAssignment.Code.Local

/-!
# Instructions

An instruction has an offset, a tag of its owner's choice, the locals it reads in order, and an
action: it assigns one local, it has an effect only, or it branches.
-/

namespace SingleAssignment

/-- The three kinds of instruction. -/
inductive Kind where
  | assignment
  | statement
  | branch
  deriving DecidableEq, Repr

/-- The name of a kind. -/
def Kind.text : Kind → String
  | .assignment => "assignment"
  | .statement => "statement"
  | .branch => "branch"

/-- What an instruction does after reading its operands. -/
inductive Action where
  | assign (destination : Local)
  | effect
  | branch (conditional : Bool) (target : Offset)
  deriving DecidableEq, Repr

/-- One instruction with a tag of type `τ`. -/
structure Instruction (τ : Type) where
  offset : Offset
  tag : τ
  operands : List Local
  action : Action
  deriving DecidableEq, Repr

namespace Instruction

variable {τ : Type}

/-- The kind of an instruction. -/
def kind (i : Instruction τ) : Kind :=
  match i.action with
  | .assign _ => .assignment
  | .effect => .statement
  | .branch _ _ => .branch

/-- The local that an assignment writes. -/
def destination? (i : Instruction τ) : Option Local :=
  match i.action with
  | .assign d => some d
  | _ => none

/-- Condition flag and target of a branch. -/
def branch? (i : Instruction τ) : Option (Bool × Offset) :=
  match i.action with
  | .branch c t => some (c, t)
  | _ => none

/-- Whether the instruction writes a local. -/
def isAssignment (i : Instruction τ) : Bool := i.destination?.isSome

/-- Whether the instruction is a branch. -/
def isBranch (i : Instruction τ) : Bool := i.branch?.isSome

/-- Every local that the instruction mentions, its destination first. -/
def locals (i : Instruction τ) : List Local := i.destination?.toList ++ i.operands

end Instruction

end SingleAssignment
