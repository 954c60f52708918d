import SingleAssignment.Code.Local
import SingleAssignment.Text.Hex

/-!
# Phi nodes

A phi stands where several definitions of one local meet.  It gives the merged value a name of its
own and lists its contributors: the name of each definition with the offset of the block it comes
from.
-/

namespace SingleAssignment

/-- One definition that flows into a phi, and the offset of its block. -/
structure Contributor where
  value : Local
  predecessor : Offset
  deriving DecidableEq, Repr

/-- The text of a contributor. -/
def Contributor.text (c : Contributor) : String :=
  c.value.text ++ " from " ++ Text.hexLower c.predecessor.toNat

/-- A merge of definitions of `origin` under the name `result`, read first at `offset`. -/
structure Phi where
  offset : Offset
  result : Local
  origin : Local
  contributors : List Contributor
  deriving DecidableEq, Repr

namespace Phi

/-- The text of a phi. -/
def text (p : Phi) : String :=
  Text.hexLower p.offset.toNat ++ ": " ++ p.result.text ++ " = phi(" ++
    ", ".intercalate (p.contributors.map Contributor.text) ++ ") ; " ++ p.origin.text

/-- The value that comes from a block, by the first contributor that names it. -/
def valueFrom? (p : Phi) (o : Offset) : Option Local :=
  (p.contributors.find? (·.predecessor == o)).map (·.value)

/-- The values by the offset of their block; the last contributor of a block counts. -/
def sources (p : Phi) : Std.TreeMap Offset Local :=
  p.contributors.foldl (fun m c => m.insert c.predecessor c.value) ∅

end Phi

end SingleAssignment
