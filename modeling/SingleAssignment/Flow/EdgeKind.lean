/-!
# Kinds of control transfer

An edge of a flow graph says how control passes from the end of one block to the start of another.
-/

namespace SingleAssignment

/-- How control passes along an edge. -/
inductive EdgeKind where
  | fallThrough
  | conditionalTrue
  | conditionalFalse
  | unconditional
  deriving DecidableEq, Repr

namespace EdgeKind

/-- The name of a kind of edge. -/
def text : EdgeKind → String
  | .fallThrough => "fallthrough"
  | .conditionalTrue => "true"
  | .conditionalFalse => "false"
  | .unconditional => "jump"

/-- The kind of the edge from a branch to its target. -/
def ofBranch (conditional : Bool) : EdgeKind :=
  if conditional then .conditionalTrue else .unconditional

/-- Whether the edge leaves a conditional branch. -/
def isConditional : EdgeKind → Bool
  | .conditionalTrue | .conditionalFalse => true
  | _ => false

/-- Whether the edge leads to the next instruction in program order. -/
def isFallThrough : EdgeKind → Bool
  | .fallThrough | .conditionalFalse => true
  | _ => false

end EdgeKind

end SingleAssignment
