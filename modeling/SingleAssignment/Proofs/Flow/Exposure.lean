import SingleAssignment.Proofs.Flow.Arrival
import SingleAssignment.Proofs.Flow.Partition

/-!
# Where phis are needed

A read is exposed if its block has not assigned the local above it.  The first exposed read of a
local in a block is where a phi has to stand, if several definitions reach it.  All this is said of
positions in a program; a flow graph that lays out the program knows the same reads block by block.

* `Program.InBlock` — the position where the block around a position starts.
* `Program.Exposed`, `Program.Merges`, `Program.PhiAt` — exposed reads, reads that several
  definitions reach, and the reads that need a phi.
* `FlowGraph.Laid.inBlock_iff`, `FlowGraph.Laid.exposed_iff`, `FlowGraph.Laid.phiAt_iff` — the same
  in a block of a flow graph.
-/

namespace SingleAssignment

variable {τ : Type}

namespace Program

/-- Position `k` is in the block that starts at position `s`. -/
structure InBlock (p : Program τ) (s k : Nat) : Prop where
  leads : Leads p.labels p.instructions.toList s
  le : s ≤ k
  lt_size : k < p.size
  inner : ∀ q, s < q → q ≤ k → ¬ Leads p.labels p.instructions.toList q

/-- Operand `j` at position `k` reads `x`, and the block from `s` on has not assigned `x` above. -/
structure Exposed (p : Program τ) (s : Nat) (x : Local) (k j : Nat) : Prop where
  inBlock : p.InBlock s k
  reads : ∃ i, p.at? k = some i ∧ i.operands[j]? = some x
  above : ∀ q, s ≤ q → q < k → ¬ p.Assigns x q

/-- At least two definitions of `x` reach position `k`. -/
def Merges (p : Program τ) (x : Local) (k : Nat) : Prop :=
  ∃ d d', d ≠ d' ∧ p.ReachingDefinition x d k ∧ p.ReachingDefinition x d' k

/-- Operand `j` at position `k` needs a phi for `x`: several definitions reach it, and it is the
first exposed read of `x` in its block. -/
def PhiAt (p : Program τ) (x : Local) (k j : Nat) : Prop :=
  p.Merges x k ∧ ∃ s, p.Exposed s x k j ∧
    ∀ k' j', (k' < k ∨ k' = k ∧ j' < j) → ¬ p.Exposed s x k' j'

/-- The block around position `k` starts at the offset `o`. -/
def BlockOffset (p : Program τ) (k : Nat) (o : Offset) : Prop :=
  ∃ s i, p.InBlock s k ∧ p.at? s = some i ∧ i.offset = o

theorem InBlock.unique {p : Program τ} {s s' k : Nat} (h : p.InBlock s k) (h' : p.InBlock s' k) :
    s = s' := by
  rcases Nat.lt_trichotomy s s' with hlt | he | hgt
  · exact absurd h'.leads (h.inner s' hlt h'.le)
  · exact he
  · exact absurd h.leads (h'.inner s hgt h.le)

/-- **A block needs at most one phi for a local.** -/
theorem PhiAt.unique {p : Program τ} {x : Local} {s k j k' j' : Nat} (h : p.PhiAt x k j)
    (h' : p.PhiAt x k' j') (hk : p.InBlock s k) (hk' : p.InBlock s k') : k = k' ∧ j = j' := by
  obtain ⟨-, t, hx, hfirst⟩ := h
  obtain ⟨-, t', hx', hfirst'⟩ := h'
  obtain rfl := hx.inBlock.unique hk
  obtain rfl := hx'.inBlock.unique hk'
  have hle := mt (hfirst k' j') (not_not.2 hx')
  have hge := mt (hfirst' k j) (not_not.2 hx)
  omega

end Program

/-- Operand `j` at place `l` of the block reads `x`, which the block has not assigned above. -/
def Block.Exposed (b : Block τ) (x : Local) (l j : Nat) : Prop :=
  (∃ i, b.instructions[l]? = some i ∧ i.operands[j]? = some x) ∧ ∀ q < l, ¬ b.Assigns x q

theorem Block.Exposed.lt {b : Block τ} {x : Local} {l j : Nat} (h : b.Exposed x l j) :
    l < b.instructions.size := by
  obtain ⟨⟨i, hi, -⟩, -⟩ := h
  exact (Array.getElem?_eq_some_iff.1 hi).1

namespace FlowGraph.Laid

variable {p : Program τ} {g : FlowGraph τ} {n : Node} {b : Block τ} {x : Local} {start l j : Nat}

theorem inBlock (h : g.Laid p.labels p.instructions.toList)
    (hp : Placed g.blocksInOrder n b start) (hl : l < b.instructions.size) :
    p.InBlock start (start + l) := by
  refine ⟨h.leads_start hp, Nat.le_add_right start l, ?_, fun q hq hql hlead => ?_⟩
  · have hat := h.at?_eq hp hl
    rw [Array.getElem?_eq_getElem hl] at hat
    exact (Array.getElem?_eq_some_iff.1 hat).1
  · obtain ⟨l', rfl⟩ : ∃ l', q = start + (l' + 1) := ⟨q - start - 1, by omega⟩
    exact h.not_leads_inner hp (by omega) hlead

theorem inBlock_iff (h : g.Laid p.labels p.instructions.toList)
    (hp : Placed g.blocksInOrder n b start) (hl : l < b.instructions.size) {s : Nat} :
    p.InBlock s (start + l) ↔ s = start := by
  constructor
  · intro hs
    exact hs.unique (h.inBlock hp hl)
  · rintro rfl
    exact h.inBlock hp hl

/-- The positions of a block are its places, counted from its start. -/
theorem inBlock_start_iff (h : g.Laid p.labels p.instructions.toList)
    (hp : Placed g.blocksInOrder n b start) {k : Nat} :
    p.InBlock start k ↔ ∃ l < b.instructions.size, k = start + l := by
  constructor
  · intro hk
    obtain ⟨m, c, s, l, hc, hl, rfl⟩ := h.exists_place hk.lt_size
    obtain rfl := (h.inBlock_iff hc hl).1 hk
    obtain ⟨-, rfl, -, -⟩ := hp.unique hc (h.size_pos hp) (h.size_pos hc) rfl
    exact ⟨l, hl, rfl⟩
  · rintro ⟨l, hl, rfl⟩
    exact h.inBlock hp hl

theorem blockOffset (h : g.Laid p.labels p.instructions.toList)
    (hp : Placed g.blocksInOrder n b start) (hl : l < b.instructions.size) :
    p.BlockOffset (start + l) b.offset := by
  obtain ⟨i, hi, -, ho⟩ := h.exists_head hp
  rw [Array.getElem?_toList] at hi
  exact ⟨start, i, h.inBlock hp hl, hi, ho⟩

/-- Exposed reads of a block of the program are exposed reads of the block of the graph. -/
theorem exposed_iff (h : g.Laid p.labels p.instructions.toList)
    (hp : Placed g.blocksInOrder n b start) {k : Nat} :
    p.Exposed start x k j ↔ ∃ l, k = start + l ∧ b.Exposed x l j := by
  constructor
  · rintro ⟨hk, ⟨i, hi, hx⟩, habove⟩
    obtain ⟨l, hl, rfl⟩ := (h.inBlock_start_iff hp).1 hk
    refine ⟨l, rfl, ⟨i, by rw [← h.at?_eq hp hl, hi], hx⟩, fun q hq => ?_⟩
    rw [← h.assigns_iff hp (by omega)]
    exact habove (start + q) (by omega) (by omega)
  · rintro ⟨l, rfl, hexposed⟩
    have hl := hexposed.lt
    obtain ⟨⟨i, hi, hx⟩, habove⟩ := hexposed
    refine ⟨h.inBlock hp hl, ⟨i, by rw [h.at?_eq hp hl, hi], hx⟩, fun q hq hqk => ?_⟩
    obtain ⟨q', rfl⟩ : ∃ q', q = start + q' := ⟨q - start, by omega⟩
    rw [h.assigns_iff hp (by omega)]
    exact habove q' (by omega)

/-- The reads of a block that need a phi. -/
theorem phiAt_iff (h : g.Laid p.labels p.instructions.toList)
    (hp : Placed g.blocksInOrder n b start) (hl : l < b.instructions.size) :
    p.PhiAt x (start + l) j ↔ p.Merges x (start + l) ∧ b.Exposed x l j ∧
      ∀ l' j', (l' < l ∨ l' = l ∧ j' < j) → ¬ b.Exposed x l' j' := by
  refine and_congr_right fun _ => ?_
  constructor
  · rintro ⟨s, hx, hfirst⟩
    obtain rfl := (h.inBlock_iff hp hl).1 hx.inBlock
    obtain ⟨l₁, hl₁, hx⟩ := (h.exposed_iff hp).1 hx
    obtain rfl : l = l₁ := by omega
    refine ⟨hx, fun l' j' hbefore hx' => ?_⟩
    exact hfirst (s + l') j' (by omega) ((h.exposed_iff hp).2 ⟨l', rfl, hx'⟩)
  · rintro ⟨hx, hfirst⟩
    refine ⟨start, (h.exposed_iff hp).2 ⟨l, rfl, hx⟩, fun k' j' hbefore hx' => ?_⟩
    obtain ⟨l', rfl, hearlier⟩ := (h.exposed_iff hp).1 hx'
    exact hfirst l' j' (by omega) hearlier

end FlowGraph.Laid

end SingleAssignment
