import SingleAssignment.Fault

/-!
# Supply of fresh locals

A supply hands out locals that are not in use, in ascending order from 1 up to the largest 32-bit
number.  Once that number is passed the supply is exhausted for good; no candidate wraps around.

* `Supply.fresh` — the next free local; on exhaustion nothing changes.
* `Supply.reserve` — several at once; locals minted before the supply runs out stay in use.  A request
  for more locals than a list has room for fails before anything is minted.
-/

namespace SingleAssignment

/-- The locals in use and the next candidate, `none` when all numbers are spent. -/
structure Supply where
  used : LocalSet
  next : Option UInt32

namespace Supply

/-- The supply of locals outside `used`. -/
def ofUsed (used : LocalSet) : Supply := ⟨used, some 1⟩

/-- The largest number of a local. -/
def last : UInt32 := 0xFFFFFFFF

/-- The number after `n`, if there is one. -/
def successor? (n : UInt32) : Option UInt32 := if n = last then none else some (n + 1)

theorem toNat_of_successor? {n m : UInt32} (h : successor? n = some m) : m.toNat = n.toNat + 1 := by
  unfold successor? at h
  split at h
  · cases h
  · rename_i hn
    cases h
    have hlt := n.toNat_lt
    have : n.toNat ≠ 4294967295 := fun e => hn (UInt32.toNat_inj.1 e)
    rw [UInt32.toNat_add]
    simp
    omega

/-- The first number from `candidate` upwards that is not in use. -/
def firstFree (used : LocalSet) (candidate : UInt32) : Option UInt32 :=
  if used.contains ⟨candidate⟩ then
    match h : successor? candidate with
    | some n =>
        have := toNat_of_successor? h
        have := n.toNat_lt_size
        firstFree used n
    | none => none
  else some candidate
termination_by UInt32.size - candidate.toNat

/-- Mint a local that is not in use. -/
def fresh : EStateM Fault Supply Local := fun s =>
  match s.next.bind (firstFree s.used) with
  | some n => .ok ⟨n⟩ ⟨s.used.insert ⟨n⟩, successor? n⟩
  | none => .error .localsExhausted s

/-- Mint `n` locals, one after the other. -/
def mint : Nat → EStateM Fault Supply (List Local)
  | 0 => pure []
  | n + 1 => do
      let x ← fresh
      let xs ← mint n
      return x :: xs

/-- The largest number of locals that a list has room for: four bytes for each, and less than 2⁶³
bytes in all. -/
def largestRequest : Nat := 2305843009213693951

/-- Mint several locals.  Room for all of them is made first. -/
def reserve (n : Nat) : EStateM Fault Supply (List Local) :=
  if n ≤ largestRequest then mint n else throw .capacityOverflow

/-- Whether a local is in use. -/
def isUsed (s : Supply) (x : Local) : Bool := s.used.contains x

/-- Number of locals in use. -/
def usedCount (s : Supply) : Nat := s.used.size

end Supply

end SingleAssignment
