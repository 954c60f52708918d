/-!
# Choices of the caller
-/

namespace SingleAssignment

/-- Number of reached blocks from which parallel renaming pays off by default. -/
def defaultThreshold : Nat := 64

/-- When blocks may be renamed in parallel, and whether dangling branches are accepted. -/
structure Config where
  parallelThreshold : Nat := defaultThreshold
  rejectDangling : Bool := false
  deriving DecidableEq, Repr

namespace Config

/-- The largest 64-bit number, more blocks than any program has. -/
def unreachableThreshold : Nat := UInt64.size - 1

/-- The configuration that never renames in parallel. -/
def sequential : Config := { parallelThreshold := unreachableThreshold }

/-- Whether so many reached blocks are renamed in parallel. -/
def renamesInParallel (c : Config) (reached : Nat) : Bool := decide (c.parallelThreshold ≤ reached)

end Config

/-- The order in which threads come to the blocks they share: for each number of blocks all of them,
each once.  Renaming a block reads and writes nothing but that block, so what threads do side by side
is what they do one after the other in some order. -/
structure Interleaving where
  order : Nat → List Nat
  perm : ∀ count, (order count).Perm (List.range count)

/-- Threads that come to the last block first. -/
def Interleaving.backwards : Interleaving where
  order count := (List.range count).reverse
  perm count := (List.range count).reverse_perm

/-- How blocks are renamed: in order, or by threads. -/
inductive Schedule where
  | sequential
  | parallel (interleaving : Interleaving)

namespace Schedule

/-- The order in which so many blocks are renamed. -/
def order : Schedule → Nat → List Nat
  | .sequential, count => List.range count
  | .parallel interleaving, count => interleaving.order count

theorem order_perm (schedule : Schedule) (count : Nat) :
    (schedule.order count).Perm (List.range count) :=
  match schedule with
  | .sequential => .refl _
  | .parallel interleaving => interleaving.perm count

/-- Whether threads are at work. -/
def isParallel : Schedule → Bool
  | .sequential => false
  | .parallel _ => true

end Schedule

/-- The schedule for so many reached blocks, if the caller admits the given one: threads are at work
only where they pay off. -/
def Config.scheduleFor (c : Config) (admitted : Schedule) (reached : Nat) : Schedule :=
  if c.renamesInParallel reached then admitted else .sequential

end SingleAssignment
