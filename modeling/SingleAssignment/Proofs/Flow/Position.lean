import SingleAssignment.Code.ControlFlow
import SingleAssignment.Proofs.Flow.Scan

/-!
# Positions of instructions in blocks

The blocks of a laid out flow graph, put behind each other, are the program.  `Placed` gives the
position where a block starts, and the two ways in which control can arrive at a position are read
off it:

* `canFollow_inner` — behind the start of a block, only from the position before.
* `canFollow_start` — at the start of a block, only from the last position of a predecessor.
-/

namespace SingleAssignment

variable {τ : Type}

/-- All instructions of a sequence of blocks. -/
def allInstructions (blocks : List (Node × Block τ)) : List (Instruction τ) :=
  blocks.flatMap (·.2.instructions.toList)

@[simp] theorem length_allInstructions_append (front back : List (Node × Block τ)) :
    (allInstructions (front ++ back)).length =
      (allInstructions front).length + (allInstructions back).length := by
  simp [allInstructions]

@[simp] theorem length_allInstructions_cons (n : Node) (b : Block τ)
    (back : List (Node × Block τ)) :
    (allInstructions ((n, b) :: back)).length =
      b.instructions.size + (allInstructions back).length := by
  simp [allInstructions]

/-- Of two elements of one list, they are the same or one stands before the other. -/
theorem split_cases {α : Type} {front back front' back' : List α} {a a' : α}
    (h : front ++ a :: back = front' ++ a' :: back') :
    front = front' ∧ a = a' ∨ (∃ mid, front' = front ++ a :: mid) ∨
      ∃ mid, front = front' ++ a' :: mid := by
  rcases List.append_eq_append_iff.1 h with ⟨mid, rfl, hmid⟩ | ⟨mid, rfl, hmid⟩
  · cases mid with
    | nil =>
        cases hmid
        exact .inl ⟨by simp, rfl⟩
    | cons c mid =>
        cases hmid
        exact .inr (.inl ⟨mid, rfl⟩)
  · cases mid with
    | nil =>
        cases hmid
        exact .inl ⟨by simp, rfl⟩
    | cons c mid =>
        cases hmid
        exact .inr (.inr ⟨mid, rfl⟩)

/-- The block `b` at node `n` starts at a position. -/
def Placed (blocks : List (Node × Block τ)) (n : Node) (b : Block τ) (start : Nat) : Prop :=
  ∃ front back, blocks = front ++ (n, b) :: back ∧ start = (allInstructions front).length

namespace Placed

variable {blocks : List (Node × Block τ)} {n n' : Node} {b b' : Block τ} {start start' : Nat}

theorem mem (h : Placed blocks n b start) : (n, b) ∈ blocks := by
  obtain ⟨front, back, rfl, _⟩ := h
  simp

theorem getElem? (h : Placed blocks n b start) {l : Nat} (hl : l < b.instructions.size) :
    (allInstructions blocks)[start + l]? = b.instructions[l]? := by
  obtain ⟨front, back, rfl, rfl⟩ := h
  have hsplit : allInstructions (front ++ (n, b) :: back) =
      allInstructions front ++ (b.instructions.toList ++ allInstructions back) := by
    simp [allInstructions]
  rw [hsplit, List.getElem?_append_right (by omega), Nat.add_sub_cancel_left,
    List.getElem?_append_left (by simpa using hl), Array.getElem?_toList]

/-- Blocks do not overlap. -/
theorem unique (h : Placed blocks n b start) (h' : Placed blocks n' b' start') {l l' : Nat}
    (hl : l < b.instructions.size) (hl' : l' < b'.instructions.size)
    (heq : start + l = start' + l') : n = n' ∧ b = b' ∧ start = start' ∧ l = l' := by
  obtain ⟨front, back, hb, rfl⟩ := h
  obtain ⟨front', back', hb', rfl⟩ := h'
  rcases split_cases (hb.symm.trans hb') with ⟨rfl, he⟩ | ⟨mid, rfl⟩ | ⟨mid, rfl⟩
  · cases he
    exact ⟨rfl, rfl, rfl, by omega⟩
  · simp only [length_allInstructions_append, length_allInstructions_cons] at heq
    omega
  · simp only [length_allInstructions_append, length_allInstructions_cons] at heq
    omega

/-- A node has one place. -/
theorem unique_of_node (hd : (blocks.map (·.1)).Nodup) (h : Placed blocks n b start)
    (h' : Placed blocks n b' start') : b = b' ∧ start = start' := by
  obtain ⟨front, back, hb, rfl⟩ := h
  obtain ⟨front', back', hb', rfl⟩ := h'
  have hout : ∀ {front back : List (Node × Block τ)} {b : Block τ},
      blocks = front ++ (n, b) :: back → n ∉ front.map (·.1) := by
    rintro front back b rfl hin
    rw [List.map_append, List.nodup_append] at hd
    exact hd.2.2 n hin n (by simp) rfl
  rcases split_cases (hb.symm.trans hb') with ⟨rfl, he⟩ | ⟨mid, rfl⟩ | ⟨mid, rfl⟩
  · cases he
    exact ⟨rfl, rfl⟩
  · exact absurd (by simp) (hout hb')
  · exact absurd (by simp) (hout hb)

end Placed

theorem exists_placed {blocks : List (Node × Block τ)} {k : Nat}
    (hk : k < (allInstructions blocks).length) :
    ∃ n b start l, Placed blocks n b start ∧ l < b.instructions.size ∧ k = start + l := by
  induction blocks generalizing k with
  | nil => simp [allInstructions] at hk
  | cons q rest ih =>
      obtain ⟨n, b⟩ := q
      rw [length_allInstructions_cons] at hk
      by_cases hlt : k < b.instructions.size
      · exact ⟨n, b, 0, k, ⟨[], rest, rfl, rfl⟩, hlt, by omega⟩
      · obtain ⟨m, c, start, l, ⟨front, back, rfl, rfl⟩, hl, he⟩ :=
          ih (k := k - b.instructions.size) (by omega)
        refine ⟨m, c, b.instructions.size + (allInstructions front).length, l,
          ⟨(n, b) :: front, back, rfl, ?_⟩, hl, by omega⟩
        rw [length_allInstructions_cons]

theorem exists_placed_of_mem {blocks : List (Node × Block τ)} {n : Node} {b : Block τ}
    (h : (n, b) ∈ blocks) : ∃ start, Placed blocks n b start := by
  obtain ⟨front, back, hb⟩ := List.append_of_mem h
  exact ⟨_, front, back, hb, rfl⟩

/-! ## Places inside a block -/

theorem Block.mem_dropLast {b : Block τ} {l : Nat} {i : Instruction τ}
    (hi : b.instructions[l]? = some i) (hl : l + 1 < b.instructions.size) :
    i ∈ b.instructions.toList.dropLast := by
  refine List.mem_of_getElem? (i := l) ?_
  rw [List.getElem?_dropLast, if_pos (by simp; omega), Array.getElem?_toList]
  exact hi

theorem Block.mem_tail {b : Block τ} {l : Nat} {i : Instruction τ}
    (hi : b.instructions[l + 1]? = some i) : i ∈ b.instructions.toList.tail := by
  refine List.mem_of_getElem? (i := l) ?_
  rw [List.getElem?_tail, Array.getElem?_toList]
  exact hi

/-! ## Transfers and fall-through -/

theorem Instruction.fallsThrough_iff (i : Instruction τ) :
    i.fallsThrough = true ↔ ∀ t, i.branch? ≠ some (false, t) := by
  cases ha : i.action with
  | assign d => simp [fallsThrough, branch?, ha]
  | effect => simp [fallsThrough, branch?, ha]
  | branch c t => cases c <;> simp [fallsThrough, branch?, ha]

theorem Instruction.fallsThrough_of_not_isBranch {i : Instruction τ} (h : i.isBranch = false) :
    i.fallsThrough = true := by
  rw [fallsThrough_iff]
  intro t ht
  simp [isBranch, ht] at h

theorem Block.exists_mem_transfers {b : Block τ} {next : Option Offset} {o : Offset} :
    (∃ k, (o, k) ∈ b.transfers next) ↔
      ∃ i, b.instructions.back? = some i ∧
        ((∃ c, i.branch? = some (c, o)) ∨ i.fallsThrough = true ∧ next = some o) := by
  unfold Block.transfers
  cases b.instructions.back? with
  | none => simp
  | some i =>
      simp only [Option.some.injEq, exists_eq_left', Instruction.fallsThrough_iff]
      cases hb : i.branch? with
      | none => cases next <;> simp [eq_comm]
      | some ct =>
          obtain ⟨c, t⟩ := ct
          constructor
          · rintro ⟨k, hk⟩
            rcases List.mem_cons.1 hk with he | hk
            · cases he
              exact .inl ⟨c, rfl⟩
            · split at hk
              · rename_i hc
                refine .inr ⟨by simp [hc.1], ?_⟩
                cases next with
                | none => simp at hk
                | some a =>
                    cases List.mem_singleton.1 hk
                    rfl
              · simp at hk
          · rintro (⟨c', he⟩ | ⟨hf, rfl⟩)
            · cases he
              exact ⟨_, List.mem_cons_self⟩
            · by_cases ht : o = t
              · subst ht
                exact ⟨_, List.mem_cons_self⟩
              · have hc : c = true := by
                  cases c
                  · exact absurd rfl (hf t)
                  · rfl
                exact ⟨.conditionalFalse, by simp [hc, ht]⟩

/-! ## How control arrives at a position -/

namespace FlowGraph.Laid

variable {labels : Std.TreeSet Offset} {is : List (Instruction τ)} {p : Program τ}
  {g : FlowGraph τ} {n : Node} {b : Block τ} {start l j : Nat}

theorem getElem?_eq (h : g.Laid labels is) (hp : Placed g.blocksInOrder n b start)
    (hl : l < b.instructions.size) : is[start + l]? = b.instructions[l]? := by
  have hall : allInstructions g.blocksInOrder = is := h.contents
  rw [← hp.getElem? hl, hall]

/-- Offsets tell positions apart. -/
theorem position_unique (h : g.Laid labels is) {k k' : Nat} {i j : Instruction τ}
    (hi : is[k]? = some i) (hj : is[k']? = some j) (ho : i.offset = j.offset) : k = k' := by
  have hk := (List.getElem?_eq_some_iff.1 hi).1
  refine (List.getElem?_inj (by simpa using hk) h.distinct).1 ?_
  rw [List.getElem?_map, List.getElem?_map, hi, hj]
  exact congrArg some ho

theorem at?_eq (h : g.Laid labels p.instructions.toList) (hp : Placed g.blocksInOrder n b start)
    (hl : l < b.instructions.size) : p.at? (start + l) = b.instructions[l]? := by
  rw [← h.getElem?_eq hp hl, Array.getElem?_toList]
  rfl

theorem exists_place (h : g.Laid labels is) {k : Nat} (hk : k < is.length) :
    ∃ n b start l, Placed g.blocksInOrder n b start ∧ l < b.instructions.size ∧ k = start + l := by
  apply exists_placed
  have hall : allInstructions g.blocksInOrder = is := h.contents
  rw [hall]
  exact hk

theorem size_pos (h : g.Laid labels is) (hp : Placed g.blocksInOrder n b start) :
    0 < b.instructions.size :=
  Array.size_pos_iff.2 (h.filled (n, b) hp.mem)

theorem nodup_order (h : g.Laid labels is) : g.order.toList.Nodup := by
  rw [h.order]
  exact h.layout.nodup

theorem exists_block (h : g.Laid labels is) (hn : n ∈ g.order.toList) :
    ∃ b, g.block? n = some b := by
  rw [h.order] at hn
  obtain ⟨q, hq, rfl⟩ := List.mem_map.1 hn
  exact ⟨q.2, h.layout.stored q hq⟩

theorem lt_blockCount (h : g.Laid labels is) (hn : n ∈ g.order.toList) : n < g.blockCount := by
  obtain ⟨b, hb⟩ := h.exists_block hn
  exact lt_of_node? hb

/-- Behind the start of a block, control arrives only from the position before. -/
theorem canFollow_inner (h : g.Laid labels p.instructions.toList)
    (hlabels : ∀ o ∈ p.labels, o ∈ labels) (hp : Placed g.blocksInOrder n b start)
    (hl : l + 1 < b.instructions.size) :
    p.CanFollow j (start + (l + 1)) ↔ j = start + l := by
  have hnext := h.at?_eq hp hl
  have hhere := h.at?_eq hp (Nat.lt_of_succ_lt hl)
  constructor
  · rintro ⟨i, t, hi, ht, ⟨hj, _⟩ | ⟨c, hc⟩⟩
    · omega
    · rw [hnext] at ht
      refine absurd (hlabels _ (Program.mem_labels.2 ⟨i, ?_, c, hc⟩))
        (h.layout.inner (n, b) hp.mem t (Block.mem_tail ht))
      exact Array.mem_toList_iff.2 (Array.mem_of_getElem? hi)
  · rintro rfl
    have hi := Array.getElem?_eq_getElem (Nat.lt_of_succ_lt hl)
    have ht := Array.getElem?_eq_getElem hl
    refine ⟨_, _, hhere.trans hi, hnext.trans ht, .inl ⟨rfl, ?_⟩⟩
    exact Instruction.fallsThrough_of_not_isBranch
      (h.layout.straight (n, b) hp.mem _ (Block.mem_dropLast hi hl))

theorem head_offset (h : g.Laid labels p.instructions.toList)
    (hp : Placed g.blocksInOrder n b start) {i : Instruction τ} (hi : p.at? start = some i) :
    i.offset = b.offset := by
  have hat := h.at?_eq (l := 0) hp (h.size_pos hp)
  rw [Nat.add_zero, hi] at hat
  refine h.layout.heads (n, b) hp.mem i ?_
  rw [List.head?_eq_getElem?, Array.getElem?_toList]
  exact hat.symm

theorem offsetAt_eq (h : g.Laid labels is) (hp : Placed g.blocksInOrder n b start) :
    offsetAt g.graph n = some b.offset := by
  unfold offsetAt
  rw [h.layout.stored (n, b) hp.mem]
  rfl

/-- The last instruction of a block, at its position. -/
theorem at?_last (h : g.Laid labels p.instructions.toList)
    (hp : Placed g.blocksInOrder n b start) (hj : j + 1 = start + b.instructions.size) :
    p.at? j = b.instructions.back? := by
  have hpos := h.size_pos hp
  have hat := h.at?_eq (l := b.instructions.size - 1) hp (by omega)
  rw [show start + (b.instructions.size - 1) = j by omega] at hat
  rw [hat, Array.back?_eq_getElem?]

/-- The block behind the last position of a block. -/
theorem next_block (h : g.Laid labels p.instructions.toList) {front back : List (Node × Block τ)}
    {m : Node} {c : Block τ} (hb : g.blocksInOrder = front ++ (m, c) :: back)
    (hp : Placed g.blocksInOrder n b start)
    (hj : start = (allInstructions front).length + c.instructions.size) :
    back.head? = some (n, b) := by
  cases back with
  | nil =>
      have hat := h.at?_eq (l := 0) hp (h.size_pos hp)
      have hall : allInstructions g.blocksInOrder = p.instructions.toList := h.contents
      have hlen := congrArg List.length hall
      rw [hb, length_allInstructions_append, length_allInstructions_cons] at hlen
      simp only [allInstructions, List.flatMap_nil, List.length_nil, Array.length_toList] at hlen
      rw [Array.getElem?_eq_getElem (h.size_pos hp)] at hat
      have hlt := (Array.getElem?_eq_some_iff.1 hat).1
      simp only [allInstructions] at hj
      omega
  | cons q back =>
      obtain ⟨m', c'⟩ := q
      have hq : Placed g.blocksInOrder m' c' start := by
        refine ⟨front ++ [(m, c)], back, by rw [hb]; simp, ?_⟩
        rw [hj]
        simp [allInstructions]
      obtain ⟨rfl, rfl, -, -⟩ := hp.unique hq (h.size_pos hp) (h.size_pos hq) rfl
      rfl

/-- At the start of a block, control arrives only from the end of a predecessor. -/
theorem canFollow_start (h : g.Laid labels p.instructions.toList)
    (hp : Placed g.blocksInOrder n b start) :
    p.CanFollow j start ↔
      ∃ m c start', Placed g.blocksInOrder m c start' ∧ j + 1 = start' + c.instructions.size ∧
        m ∈ g.predecessors n := by
  have hpred : ∀ m, m ∈ g.predecessors n ↔ ∃ front c back,
      g.blocksInOrder = front ++ (m, c) :: back ∧ ∃ i, c.instructions.back? = some i ∧
        ((∃ f, i.branch? = some (f, b.offset)) ∨
          i.fallsThrough = true ∧ back.head?.map (·.2.offset) = some b.offset) := by
    intro m
    unfold predecessors
    rw [h.layout.linked.mem_predecessors, h.layout.exists_edge_iff (h.offsetAt_eq hp)]
    simp only [mem_layoutEdges]
    constructor
    · rintro ⟨k, front, c, back, hb, hk⟩
      refine ⟨front, c, back, hb, ?_⟩
      simpa using Block.exists_mem_transfers.1 ⟨k, hk⟩
    · rintro ⟨front, c, back, hb, hi⟩
      obtain ⟨k, hk⟩ := Block.exists_mem_transfers.2 hi
      exact ⟨k, front, c, back, hb, by simpa using hk⟩
  constructor
  · rintro ⟨i, t, hi, ht, hor⟩
    have hlt : j < p.size := (Array.getElem?_eq_some_iff.1 hi).1
    obtain ⟨m, c, start', l, hq, hl, rfl⟩ := h.exists_place hlt
    have hci := h.at?_eq hq hl
    rw [hi] at hci
    have hto := h.head_offset hp ht
    -- control leaves a block only behind its last instruction
    have hlast : l + 1 = c.instructions.size := by
      rcases Nat.lt_or_ge (l + 1) c.instructions.size with hlt | hge
      · rcases hor with ⟨hs, _⟩ | ⟨f, hf⟩
        · have := hp.unique hq (h.size_pos hp) hlt (by omega)
          omega
        · have hbr := h.layout.straight (m, c) hq.mem i (Block.mem_dropLast hci.symm hlt)
          simp [Instruction.isBranch, hf] at hbr
      · omega
    refine ⟨m, c, start', hq, by omega, (hpred m).2 ?_⟩
    obtain ⟨front, back, hb, hstart⟩ := id hq
    have hback : c.instructions.back? = some i := by
      rw [Array.back?_eq_getElem?, ← hlast, Nat.add_sub_cancel]
      exact hci.symm
    refine ⟨front, c, back, hb, i, hback, ?_⟩
    rcases hor with ⟨hs, hf⟩ | ⟨f, hf⟩
    · refine .inr ⟨hf, ?_⟩
      rw [h.next_block hb hp (by omega)]
      rfl
    · exact .inl ⟨f, by rw [hf, hto]⟩
  · rintro ⟨m, c, start', hq, hj, hm⟩
    obtain ⟨front, c', back, hb, i, hi, hor⟩ := (hpred m).1 hm
    obtain ⟨rfl, rfl⟩ := hq.unique_of_node h.layout.nodup ⟨front, back, hb, rfl⟩
    have hat := h.at?_last hq hj
    rw [hi] at hat
    have hstart := h.at?_eq (l := 0) hp (h.size_pos hp)
    rw [Nat.add_zero, Array.getElem?_eq_getElem (h.size_pos hp)] at hstart
    have hto := h.head_offset hp hstart
    refine ⟨i, _, hat, hstart, ?_⟩
    rcases hor with ⟨f, hf⟩ | ⟨hf, hnext⟩
    · exact .inr ⟨f, by rw [hf, hto]⟩
    · refine .inl ⟨?_, hf⟩
      cases back with
      | nil => cases hnext
      | cons q back =>
          obtain ⟨m', c''⟩ := q
          have hq' : Placed g.blocksInOrder m' c'' (j + 1) := by
            refine ⟨front ++ [(m, c)], back, by rw [hb]; simp, ?_⟩
            rw [hj]
            simp [allInstructions]
          have hoff : c''.offset = b.offset := Option.some.inj hnext
          have hsame : m' = n :=
            h.layout.node_unique (by rw [h.offsetAt_eq hq', hoff]) (h.offsetAt_eq hp)
          subst hsame
          exact (hp.unique_of_node h.layout.nodup hq').2

end FlowGraph.Laid

end SingleAssignment
