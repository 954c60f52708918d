import SingleAssignment.Flow.Graph
import SingleAssignment.Phi

/-!
# Reaching definitions

Which definitions of a local can be its last one when control arrives at a block?  The search walks
the flow graph backwards from the predecessors of the block, in the order of their edges.  A block
that exports the local contributes its export and is not walked through; any other block is walked
through to its own predecessors.  The starting block counts only if a cycle leads back to it.

* `DefinitionWalk` — the marks of a search, reusable from one search to the next.
* `DefinitionWalk.run` — the walk with an explicit stack.
* `DefinitionWalk.reaching` — one search with marks of any origin.
* `FlowGraph.reachingDefinitions` — one search with fresh marks.
-/

namespace SingleAssignment

/-- The blocks visited by the last search. -/
structure DefinitionWalk where
  visited : BitSet

namespace DefinitionWalk

variable {τ : Type}

/-- Marks for the blocks of a flow graph. -/
def ofGraph (g : FlowGraph τ) : DefinitionWalk := ⟨BitSet.empty g.blockCount⟩

/-- Walk backwards from the blocks on the stack; `found` holds the contributors so far. -/
def run (g : FlowGraph τ) (x : Local) (visited : BitSet) (stack : List Node)
    (found : Array Contributor) : EStateM.Result Fault BitSet (List Contributor) :=
  match stack with
  | [] => .ok found.toList visited
  | n :: rest =>
      match h : BitSet.insert n visited with
      | .error e marked => .error e marked
      | .ok false marked =>
          have := BitSet.insert_false h
          run g x marked rest found
      | .ok true marked =>
          have := BitSet.free_lt_of_insert h
          match g.block? n with
          | none => run g x marked rest found
          | some b =>
              match b.exported? x with
              | some y => run g x marked rest (found.push ⟨y, b.offset⟩)
              | none => run g x marked (g.predecessors n ++ rest) found
termination_by (visited.free, stack.length)
decreasing_by
  · subst this
    exact Prod.Lex.right _ (by simp)
  all_goals exact Prod.Lex.left _ _ this

/-- The definitions of `x` that reach the start of a block.  Marks of an earlier search are wiped,
and replaced if they are too few for this flow graph. -/
def reaching (g : FlowGraph τ) (n : Node) (x : Local) :
    EStateM Fault DefinitionWalk (List Contributor) := fun w =>
  let marks :=
    if w.visited.capacity < g.blockCount then BitSet.empty g.blockCount else w.visited.clear
  match run g x marks (g.predecessors n) #[] with
  | .ok found visited => .ok found ⟨visited⟩
  | .error e visited => .error e ⟨visited⟩

end DefinitionWalk

/-- The definitions of `x` that reach the start of a block. -/
def FlowGraph.reachingDefinitions {τ : Type} (g : FlowGraph τ) (n : Node) (x : Local) :
    Except Fault (List Contributor) :=
  match DefinitionWalk.reaching g n x (.ofGraph g) with
  | .ok found _ => .ok found
  | .error e _ => .error e

end SingleAssignment
