import SingleAssignment.Code.Local
import SingleAssignment.Text.Hex

/-!
# Faults

`Fault` lists every cause for which an operation of this library can fail, and `Fault.message` holds
their wording.  A failing operation is written in `EStateM Fault`, whose error result carries the
state that the operation leaves behind.

The last two faults are not of the domain: `indexOutOfBounds` is an access beyond the end of a table,
and `capacityOverflow` a request for more room than a list can have.
-/

namespace SingleAssignment

/-- Why an edge is refused by a graph. -/
inductive GraphFault where
  | missingSource (node nodeCount : Nat)
  | missingTarget (node nodeCount : Nat)
  deriving DecidableEq, Repr

/-- The wording of a graph fault. -/
def GraphFault.message : GraphFault → String
  | .missingSource n k =>
      "Edge source n" ++ toString n ++ " does not exist (node count: " ++ toString k ++ ")"
  | .missingTarget n k =>
      "Edge target n" ++ toString n ++ " does not exist (node count: " ++ toString k ++ ")"

/-- A condition that every caller inside the library guarantees, found broken. -/
inductive Violation where
  | reservationShort (block : Offset) (reserved : Nat)
  | reservationLong (block : Offset) (reserved renamed : Nat)
  | missingBlock (node : Nat)
  | missingCurrent (node : Nat)
  deriving DecidableEq, Repr

/-- The wording of a violation. -/
def Violation.message : Violation → String
  | .reservationShort o m =>
      "Block at " ++ Text.hexUpper o.toNat ++ " has more assignments than the " ++ toString m ++
        " reserved ids"
  | .reservationLong o m n =>
      "Reserved " ++ toString m ++ " ids for block at " ++ Text.hexUpper o.toNat ++ " but only " ++
        toString n ++ " assignments were renamed"
  | .missingBlock n => "Block n" ++ toString n ++ " missing from CFG arena"
  | .missingCurrent n => "Current block n" ++ toString n ++ " is not in the arena"

/-- The check that noticed a violation. -/
structure Site where
  file : String
  line : Nat
  deriving DecidableEq, Repr

/-- The wording of what a check has noticed. -/
def Site.report (site : Site) (message : String) : String :=
  "Invariant violated - " ++ site.file ++ ":" ++ toString site.line ++ ": " ++ message

/-- The causes of failure. -/
inductive Fault where
  | emptyProgram
  | duplicateOffset (offset : Offset)
  | danglingBranchTarget (branch target : Offset)
  | localsExhausted
  | graph (cause : GraphFault)
  | invariantViolation (cause : Violation) (site : Site)
  | indexOutOfBounds
  | capacityOverflow
  deriving DecidableEq, Repr

/-- The wording of a fault. -/
def Fault.message : Fault → String
  | .emptyProgram => "Cannot convert an empty program"
  | .duplicateOffset o => "Duplicate instruction offset " ++ Text.hexUpper o.toNat
  | .danglingBranchTarget b t =>
      "Branch at " ++ Text.hexUpper b.toNat ++ " targets unknown offset " ++ Text.hexUpper t.toNat
  | .localsExhausted => "Local identifier space exhausted"
  | .graph cause => cause.message
  | .invariantViolation cause site => site.report cause.message
  | .indexOutOfBounds => "index out of bounds"
  | .capacityOverflow => "capacity overflow"

end SingleAssignment
