import SingleAssignment.Proofs.Flow.Position

/-!
# Which assignments arrive at a block

Reaching definitions are said of single instructions; the flow graph knows blocks.  This module
carries the one notion over to the other.

* `FlowGraph.Supplies` — a block that writes has a path to another block on which no block in
  between writes.
* `FlowGraph.Laid.reaching_inside` — behind an assignment of the same block, only the last such
  assignment reaches.
* `FlowGraph.Laid.reaching_across` — **otherwise exactly the last assignments of the supplying
  blocks reach.**
-/

namespace SingleAssignment

variable {τ : Type}

/-- The instruction at place `l` of the block assigns `x`. -/
def Block.Assigns (b : Block τ) (x : Local) (l : Nat) : Prop :=
  ∃ i, b.instructions[l]? = some i ∧ i.destination? = some x

/-- The last assignment to `x` in the block stands at place `l`. -/
def Block.LastAssigns (b : Block τ) (x : Local) (l : Nat) : Prop :=
  b.Assigns x l ∧ ∀ q, l < q → ¬ b.Assigns x q

theorem Block.Assigns.lt {b : Block τ} {x : Local} {l : Nat} (h : b.Assigns x l) :
    l < b.instructions.size := by
  obtain ⟨i, hi, _⟩ := h
  exact (Array.getElem?_eq_some_iff.1 hi).1

/-- The last place below a bound that assigns, if there is one. -/
theorem Block.last_below (b : Block τ) (x : Local) (bound : Nat) :
    (∀ q < bound, ¬ b.Assigns x q) ∨
      ∃ l < bound, b.Assigns x l ∧ ∀ q, l < q → q < bound → ¬ b.Assigns x q := by
  induction bound with
  | zero => exact .inl fun q hq => absurd hq (Nat.not_lt_zero q)
  | succ bound ih =>
      by_cases hb : b.Assigns x bound
      · exact .inr ⟨bound, Nat.lt_succ_self _, hb, fun q _ _ => by omega⟩
      · rcases ih with hno | ⟨l, hl, ha, hlast⟩
        · refine .inl fun q hq => ?_
          rcases Nat.lt_succ_iff_lt_or_eq.1 hq with hq | rfl
          · exact hno q hq
          · exact hb
        · refine .inr ⟨l, by omega, ha, fun q hlq hq => ?_⟩
          rcases Nat.lt_succ_iff_lt_or_eq.1 hq with hq | rfl
          · exact hlast q hlq hq
          · exact hb

theorem Block.exists_lastAssigns {b : Block τ} {x : Local} {l : Nat} (h : b.Assigns x l) :
    ∃ l', b.LastAssigns x l' := by
  rcases b.last_below x b.instructions.size with hno | ⟨l', _, ha, hlast⟩
  · exact absurd h (hno l h.lt)
  · refine ⟨l', ha, fun q hq hqa => ?_⟩
    exact hlast q hq hqa.lt hqa

namespace FlowGraph

/-- The block at `n` assigns `x`. -/
def Writes (g : FlowGraph τ) (x : Local) (n : Node) : Prop :=
  ∃ b, g.block? n = some b ∧ ∃ l, b.Assigns x l

/-- A writing block leads to a node, and no block on the way writes. -/
inductive Supplies (g : FlowGraph τ) (writes : Node → Prop) : Node → Node → Prop where
  | direct {d n : Node} : d ∈ g.predecessors n → writes d → Supplies g writes d n
  | through {d m n : Node} :
      m ∈ g.predecessors n → ¬ writes m → Supplies g writes d m → Supplies g writes d n

theorem Supplies.writes {g : FlowGraph τ} {writes : Node → Prop} {d n : Node}
    (h : g.Supplies writes d n) : writes d := by
  induction h with
  | direct _ hw => exact hw
  | through _ _ _ ih => exact ih

namespace Laid

variable {p : Program τ} {g : FlowGraph τ} {n : Node} {b : Block τ} {x : Local}
  {start l l' d : Nat}

theorem assigns_iff (h : g.Laid p.labels p.instructions.toList)
    (hp : Placed g.blocksInOrder n b start) (hl : l < b.instructions.size) :
    p.Assigns x (start + l) ↔ b.Assigns x l := by
  unfold Program.Assigns Block.Assigns
  rw [h.at?_eq hp hl]

theorem writes_iff (h : g.Laid p.labels p.instructions.toList)
    (hp : Placed g.blocksInOrder n b start) : g.Writes x n ↔ ∃ l, b.Assigns x l := by
  have hb : g.block? n = some b := h.layout.stored (n, b) hp.mem
  constructor
  · rintro ⟨b', hb', hl⟩
    rw [hb] at hb'
    cases hb'
    exact hl
  · intro hl
    exact ⟨b, hb, hl⟩

/-- A predecessor has instructions. -/
theorem placed_of_mem_predecessors (h : g.Laid p.labels p.instructions.toList)
    (hp : Placed g.blocksInOrder n b start) {m : Node} (hm : m ∈ g.predecessors n) :
    ∃ c start', Placed g.blocksInOrder m c start' := by
  unfold predecessors at hm
  rw [h.layout.linked.mem_predecessors, h.layout.exists_edge_iff (h.offsetAt_eq hp)] at hm
  obtain ⟨k, hk⟩ := hm
  obtain ⟨front, c, back, hb, _⟩ := mem_layoutEdges.1 hk
  exact ⟨c, _, front, back, hb, rfl⟩

/-! ## From a block-level path to a walk -/

theorem reaches_inside (h : g.Laid p.labels p.instructions.toList)
    (hp : Placed g.blocksInOrder n b start) (hll : l' < l) (hl : l < b.instructions.size)
    (hno : ∀ q, l' < q → q < l → ¬ b.Assigns x q) : p.Reaches x (start + l') (start + l) := by
  induction l with
  | zero => omega
  | succ l ih =>
      have hstep := (h.canFollow_inner (fun _ => id) hp hl).2 rfl
      rcases Nat.lt_succ_iff_lt_or_eq.1 hll with hlt | rfl
      · have hr := ih hlt (by omega) fun q hq hql => hno q hq (by omega)
        refine .tail hr ?_ hstep
        rw [h.assigns_iff hp (by omega)]
        exact hno l hlt (by omega)
      · exact .step hstep

theorem reaches_from_start (h : g.Laid p.labels p.instructions.toList)
    (hp : Placed g.blocksInOrder n b start) (hr : p.Reaches x d start)
    (hl : l < b.instructions.size) (hno : ∀ q < l, ¬ b.Assigns x q) :
    p.Reaches x d (start + l) := by
  induction l with
  | zero => exact hr
  | succ l ih =>
      refine .tail (ih (by omega) fun q hq => hno q (by omega)) ?_
        ((h.canFollow_inner (fun _ => id) hp hl).2 rfl)
      rw [h.assigns_iff hp (by omega)]
      exact hno l (by omega)

theorem reaches_of_supplies (h : g.Laid p.labels p.instructions.toList) {D : Node}
    (hs : g.Supplies (g.Writes x) D n) {c : Block τ} {startD : Nat}
    (hD : Placed g.blocksInOrder D c startD) (hlast : c.LastAssigns x l')
    (hp : Placed g.blocksInOrder n b start) : p.Reaches x (startD + l') start := by
  induction hs generalizing b start with
  | direct hpred _ =>
      have hlt := hlast.1.lt
      have hstep := (h.canFollow_start hp (j := startD + (c.instructions.size - 1))).2
        ⟨_, c, startD, hD, by omega, hpred⟩
      rcases Nat.lt_or_ge l' (c.instructions.size - 1) with hl | hl
      · refine .tail (h.reaches_inside hD hl (by omega) fun q hq _ => hlast.2 q hq) ?_ hstep
        rw [h.assigns_iff hD (by omega)]
        exact hlast.2 _ hl
      · have he : l' = c.instructions.size - 1 := by omega
        rw [he]
        exact .step hstep
  | @through m n hpred hw _ ih =>
      obtain ⟨e, startM, hM⟩ := h.placed_of_mem_predecessors hp hpred
      have hpos := h.size_pos hM
      have hnone : ∀ q, ¬ e.Assigns x q := fun q hq => hw ((h.writes_iff hM).2 ⟨q, hq⟩)
      have hstep := (h.canFollow_start hp (j := startM + (e.instructions.size - 1))).2
        ⟨m, e, startM, hM, by omega, hpred⟩
      refine .tail (h.reaches_from_start hM (ih hM) (by omega) fun q _ => hnone q) ?_ hstep
      rw [h.assigns_iff hM (by omega)]
      exact hnone _

/-! ## From a walk to a block-level path -/

/-- Where an assignment to `x` stands that is the last one on a walk to place `l` of a block. -/
theorem origin_of_reaches (h : g.Laid p.labels p.instructions.toList) {k : Nat}
    (hd : p.Assigns x d) (hr : p.Reaches x d k) (hp : Placed g.blocksInOrder n b start)
    (hl : l < b.instructions.size) (hk : k = start + l) :
    (∃ l' < l, d = start + l' ∧ ∀ q, l' < q → q < l → ¬ b.Assigns x q) ∨
      (∀ q < l, ¬ b.Assigns x q) ∧ ∃ D c startD l', g.Supplies (g.Writes x) D n ∧
        Placed g.blocksInOrder D c startD ∧ c.LastAssigns x l' ∧ d = startD + l' := by
  -- the last step of the walk comes from inside the block or from the end of a predecessor
  induction hr generalizing n b start l with
  | step hstep =>
      subst hk
      cases l with
      | zero =>
          obtain ⟨m, c, start', hM, hj, hpred⟩ := (h.canFollow_start hp).1 hstep
          have hpos := h.size_pos hM
          have he : d = start' + (c.instructions.size - 1) := by omega
          rw [he, h.assigns_iff hM (by omega)] at hd
          refine .inr ⟨fun q hq => absurd hq (Nat.not_lt_zero q), m, c, start', _,
            .direct hpred ((h.writes_iff hM).2 ⟨_, hd⟩), hM, ⟨hd, fun q hq hqa => ?_⟩, he⟩
          have := hqa.lt
          omega
      | succ l =>
          have he := (h.canFollow_inner (fun _ => id) hp hl).1 hstep
          exact .inl ⟨l, by omega, he, fun q _ _ => by omega⟩
  | @tail j k _ hj hstep ih =>
      subst hk
      cases l with
      | zero =>
          obtain ⟨m, c, start', hM, hlast, hpred⟩ := (h.canFollow_start hp).1 hstep
          have hpos := h.size_pos hM
          have he : j = start' + (c.instructions.size - 1) := by omega
          have hjn : ¬ c.Assigns x (c.instructions.size - 1) := by
            rw [he, h.assigns_iff hM (by omega)] at hj
            exact hj
          refine .inr ⟨fun q hq => absurd hq (Nat.not_lt_zero q), ?_⟩
          rcases ih hM (l := c.instructions.size - 1) (by omega) he with
            ⟨l', hl', hd', hno⟩ | ⟨hno, D, cD, startD, l', hsup, hD, hlastD, hd'⟩
          · -- the assignment stands in the predecessor itself
            rw [hd', h.assigns_iff hM (by omega)] at hd
            refine ⟨m, c, start', l', .direct hpred ((h.writes_iff hM).2 ⟨l', hd⟩), hM,
              ⟨hd, fun q hq hqa => ?_⟩, hd'⟩
            have hlt := hqa.lt
            rcases Nat.lt_or_ge q (c.instructions.size - 1) with hq' | hq'
            · exact hno q hq hq' hqa
            · exact hjn (by rwa [show q = c.instructions.size - 1 by omega] at hqa)
          · -- the predecessor does not write, so the assignment comes from further back
            refine ⟨D, cD, startD, l', .through hpred (fun hw => ?_) hsup, hD, hlastD, hd'⟩
            obtain ⟨q, hqa⟩ := (h.writes_iff hM).1 hw
            have hlt := hqa.lt
            rcases Nat.lt_or_ge q (c.instructions.size - 1) with hq' | hq'
            · exact hno q hq' hqa
            · exact hjn (by rwa [show q = c.instructions.size - 1 by omega] at hqa)
      | succ l =>
          have he := (h.canFollow_inner (fun _ => id) hp hl).1 hstep
          have hjn : ¬ b.Assigns x l := by
            rw [he, h.assigns_iff hp (by omega)] at hj
            exact hj
          rcases ih hp (l := l) (by omega) he with ⟨l', hl', hd', hno⟩ | ⟨hno, hsup⟩
          · refine .inl ⟨l', by omega, hd', fun q hq hql => ?_⟩
            rcases Nat.lt_succ_iff_lt_or_eq.1 hql with hql | rfl
            · exact hno q hq hql
            · exact hjn
          · refine .inr ⟨fun q hq => ?_, hsup⟩
            rcases Nat.lt_succ_iff_lt_or_eq.1 hq with hq | rfl
            · exact hno q hq
            · exact hjn

/-! ## Reaching definitions by blocks -/

/-- **Behind an assignment of the same block, only the last one reaches.** -/
theorem reaching_inside (h : g.Laid p.labels p.instructions.toList)
    (hp : Placed g.blocksInOrder n b start) (hl : l < b.instructions.size) (hll : l' < l)
    (ha : b.Assigns x l') (hno : ∀ q, l' < q → q < l → ¬ b.Assigns x q) :
    p.ReachingDefinition x d (start + l) ↔ d = start + l' := by
  constructor
  · rintro ⟨hd, hr⟩
    rcases h.origin_of_reaches hd hr hp hl rfl with ⟨l'', hl'', rfl, hno'⟩ | ⟨hnone, _⟩
    · rw [h.assigns_iff hp (by omega)] at hd
      rcases Nat.lt_trichotomy l' l'' with hlt | rfl | hgt
      · exact absurd hd (hno l'' hlt hl'')
      · rfl
      · exact absurd ha (hno' l' hgt hll)
    · exact absurd ha (hnone l' hll)
  · rintro rfl
    exact ⟨(h.assigns_iff hp (by omega)).2 ha, h.reaches_inside hp hll hl hno⟩

/-- **Before any assignment of the same block, exactly the last assignments of the supplying blocks
reach.** -/
theorem reaching_across (h : g.Laid p.labels p.instructions.toList)
    (hp : Placed g.blocksInOrder n b start) (hl : l < b.instructions.size)
    (hno : ∀ q < l, ¬ b.Assigns x q) :
    p.ReachingDefinition x d (start + l) ↔
      ∃ D c startD l', g.Supplies (g.Writes x) D n ∧ Placed g.blocksInOrder D c startD ∧
        c.LastAssigns x l' ∧ d = startD + l' := by
  constructor
  · rintro ⟨hd, hr⟩
    rcases h.origin_of_reaches hd hr hp hl rfl with ⟨l', hl', rfl, _⟩ | ⟨_, hsup⟩
    · rw [h.assigns_iff hp (by omega)] at hd
      exact absurd hd (hno l' hl')
    · exact hsup
  · rintro ⟨D, c, startD, l', hsup, hD, hlast, rfl⟩
    exact ⟨(h.assigns_iff hD hlast.1.lt).2 hlast.1,
      h.reaches_from_start hp (h.reaches_of_supplies hsup hD hlast hp) hl hno⟩

end Laid

end FlowGraph

end SingleAssignment
