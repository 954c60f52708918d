import SingleAssignment.Code.Instruction

/-!
# Statistics of a conversion
-/

namespace SingleAssignment

/-- What a conversion has counted. -/
structure Stats where
  blocks : Nat := 0
  reachedBlocks : Nat := 0
  danglingTargets : Nat := 0
  definitions : Nat := 0
  phis : Nat := 0
  unresolvedImports : Nat := 0
  assignments : Nat := 0
  statements : Nat := 0
  branches : Nat := 0
  deriving DecidableEq, Repr

namespace Stats

/-- Number of emitted instructions of a kind. -/
def emitted (s : Stats) : Kind → Nat
  | .assignment => s.assignments
  | .statement => s.statements
  | .branch => s.branches

/-- Number of emitted instructions. -/
def totalEmitted (s : Stats) : Nat := s.assignments + s.statements + s.branches

/-- Count one emitted instruction. -/
def countEmitted (s : Stats) : Kind → Stats
  | .assignment => { s with assignments := s.assignments + 1 }
  | .statement => { s with statements := s.statements + 1 }
  | .branch => { s with branches := s.branches + 1 }

/-- The counters in one line. -/
def text (s : Stats) : String :=
  toString s.blocks ++ " blocks (" ++ toString s.reachedBlocks ++ " reached, " ++
    toString s.danglingTargets ++ " dangling), " ++ toString s.definitions ++ " definitions, " ++
    toString s.phis ++ " phis, " ++ toString s.unresolvedImports ++ " unresolved, " ++
    toString s.assignments ++ " " ++ Kind.assignment.text ++ ", " ++
    toString s.statements ++ " " ++ Kind.statement.text ++ ", " ++
    toString s.branches ++ " " ++ Kind.branch.text

end Stats

end SingleAssignment
