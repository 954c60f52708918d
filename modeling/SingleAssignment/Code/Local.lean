import Std.Data.TreeMap.Lemmas
import Std.Data.TreeSet.Lemmas

/-!
# Locals and offsets

* `Local` — the number of a local variable, a 32-bit word, written `v7`.
* `Offset` — the position of an instruction, a 32-bit word that serves only as a name.
* `LocalSet`, `LocalMap` — finite sets of locals and finite maps between locals, kept in ascending
  order of the number.
-/

namespace SingleAssignment

/-- Position of an instruction in its program. -/
abbrev Offset := UInt32

/-- A local variable, known by its number. -/
structure Local where
  index : UInt32
  deriving DecidableEq, Repr

namespace Local

/-- The text `v7` of local 7. -/
def text (x : Local) : String := "v" ++ toString x.index.toNat

/-- The text `LocalId(7)` of local 7. -/
def describe (x : Local) : String := "LocalId(" ++ toString x.index.toNat ++ ")"

instance : Ord Local := ⟨fun a b => compare a.index b.index⟩

instance : Std.TransOrd Local := inferInstanceAs (Std.TransCmp (compareOn Local.index))

instance : Std.LawfulEqOrd Local where
  eq_of_compare {a b} h := by
    have hi : a.index = b.index := Std.LawfulEqOrd.eq_of_compare h
    cases a
    cases b
    exact congrArg Local.mk hi

end Local

/-- A finite set of locals in ascending order. -/
abbrev LocalSet := Std.TreeSet Local

/-- A finite map between locals in ascending order of its keys. -/
abbrev LocalMap := Std.TreeMap Local Local

end SingleAssignment
