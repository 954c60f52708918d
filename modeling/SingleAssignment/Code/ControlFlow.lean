import SingleAssignment.Code.Program

/-!
# Control flow between instructions

The order in which the instructions of a program can run, said of single instructions and without
blocks.  Instructions are known by their position in the program.

* `Program.CanFollow` — one step of control: to the next instruction, unless an unconditional branch
  stands in between, and from a branch to the instruction at its target.
* `Program.Reaches` — a walk of one step or more on which a local is not assigned strictly between
  its ends.
* `Program.ReachingDefinition` — an assignment whose value a read can see.
-/

namespace SingleAssignment

/-- Whether control can pass on to the instruction behind this one. -/
def Instruction.fallsThrough {τ : Type} (i : Instruction τ) : Bool :=
  match i.action with
  | .branch conditional _ => conditional
  | _ => true

namespace Program

variable {τ : Type}

/-- The instruction at a position. -/
def at? (p : Program τ) (k : Nat) : Option (Instruction τ) := p.instructions[k]?

/-- The instruction at position `k` assigns `x`. -/
def Assigns (p : Program τ) (x : Local) (k : Nat) : Prop :=
  ∃ i, p.at? k = some i ∧ i.destination? = some x

/-- Control can pass from position `k` to position `m` in one step. -/
def CanFollow (p : Program τ) (k m : Nat) : Prop :=
  ∃ i j, p.at? k = some i ∧ p.at? m = some j ∧
    ((m = k + 1 ∧ i.fallsThrough = true) ∨ ∃ c, i.branch? = some (c, j.offset))

/-- Control can pass from `k` to `m` in one step or more, and `x` is not assigned in between. -/
inductive Reaches (p : Program τ) (x : Local) : Nat → Nat → Prop where
  | step {k m : Nat} : p.CanFollow k m → Reaches p x k m
  | tail {k m n : Nat} : Reaches p x k m → ¬ p.Assigns x m → p.CanFollow m n → Reaches p x k n

/-- The assignment to `x` at position `d` can be the last one when control arrives at `k`. -/
def ReachingDefinition (p : Program τ) (x : Local) (d k : Nat) : Prop :=
  p.Assigns x d ∧ p.Reaches x d k

instance (p : Program τ) (x : Local) (k : Nat) : Decidable (p.Assigns x k) :=
  match h : p.at? k with
  | none => isFalse fun ⟨_, hi, _⟩ => by rw [h] at hi; cases hi
  | some i =>
      if hd : i.destination? = some x then isTrue ⟨i, h, hd⟩
      else isFalse fun ⟨_, hi, hx⟩ => by rw [h] at hi; cases hi; exact hd hx

theorem Reaches.head {p : Program τ} {x : Local} {k m n : Nat} (hkm : p.CanFollow k m)
    (hm : ¬ p.Assigns x m) (hmn : p.Reaches x m n) : p.Reaches x k n := by
  induction hmn with
  | step h => exact .tail (.step hkm) hm h
  | tail _ hj h ih => exact .tail ih hj h

theorem Reaches.lt_size {p : Program τ} {x : Local} {k m : Nat} (h : p.Reaches x k m) :
    k < p.size ∧ m < p.size := by
  have step {a b : Nat} (h : p.CanFollow a b) : a < p.size ∧ b < p.size := by
    obtain ⟨_, _, ha, hb, _⟩ := h
    exact ⟨(Array.getElem?_eq_some_iff.1 ha).1, (Array.getElem?_eq_some_iff.1 hb).1⟩
  induction h with
  | step h => exact step h
  | tail _ _ h ih => exact ⟨ih.1, (step h).2⟩

end Program

end SingleAssignment
