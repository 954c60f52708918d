import Mathlib.Order.Nat
import SingleAssignment.Proofs.Flow.Partition

/-!
# What building refuses

Building the flow graph of a program fails if there is no instruction or if an offset is repeated.
Branches to offsets without an instruction do not make it fail; they are noted, the first one first.

* `Program.RepeatsAt`, `Program.DanglesAt` — repeated offsets and dangling branches, by position.
* `FlowGraph.ofProgram_cases` — the outcomes of building, with the first repeated offset.
* `FlowGraph.Laid.dangling_zero` — **the first dangling branch of the program is noted first.**
* `FlowGraph.InRange` — numbers and tables of a flow graph belong together.
-/

namespace SingleAssignment

variable {τ : Type}

/-! ## Repeated offsets and dangling branches -/

namespace Program

/-- The instruction at position `k` repeats the offset of an earlier one. -/
def RepeatsAt (p : Program τ) (k : Nat) : Prop :=
  ∃ q i j, q < k ∧ p.at? q = some i ∧ p.at? k = some j ∧ i.offset = j.offset

/-- The instruction at position `k` is a branch to an offset without an instruction. -/
def DanglesAt (p : Program τ) (k : Nat) : Prop :=
  ∃ i c t, p.at? k = some i ∧ i.branch? = some (c, t) ∧ ∀ q j, p.at? q = some j → j.offset ≠ t

/-- The program has instructions, and no two at one offset. -/
def Layable (p : Program τ) : Prop := p.size ≠ 0 ∧ ∀ k, ¬ p.RepeatsAt k

theorem not_layable {p : Program τ} (h : ¬ p.Layable) :
    p.size = 0 ∨ ∃ k i, IsLeast {k | p.RepeatsAt k} k ∧ p.at? k = some i := by
  classical
  by_cases hsize : p.size = 0
  · exact .inl hsize
  · have hrepeats : ∃ k, p.RepeatsAt k := by
      by_contra hno
      exact h ⟨hsize, fun k hk => hno ⟨k, hk⟩⟩
    have hleast := Nat.isLeast_find hrepeats
    obtain ⟨_, _, i, _, _, hi, _⟩ := hleast.1
    exact .inr ⟨_, i, hleast, hi⟩

/-- Of several dangling branches one is the first. -/
theorem exists_first_dangling {p : Program τ} (h : ∃ k, p.DanglesAt k) :
    ∃ k i c t, IsLeast {k | p.DanglesAt k} k ∧ p.at? k = some i ∧ i.branch? = some (c, t) := by
  classical
  have hleast := Nat.isLeast_find h
  obtain ⟨i, c, t, hi, hb, _⟩ := hleast.1
  exact ⟨_, i, c, t, hleast, hi, hb⟩

/-- Where a branch leads is a label. -/
theorem mem_labels_of_branch {p : Program τ} {k : Nat} {i : Instruction τ} {c : Bool}
    {t : Offset} (hi : p.at? k = some i) (hb : i.branch? = some (c, t)) : t ∈ p.labels :=
  mem_labels.2 ⟨i, Array.mem_toList_iff.2 (Array.mem_of_getElem? hi), c, hb⟩

theorem getElem?_toList (p : Program τ) (k : Nat) : p.instructions.toList[k]? = p.at? k :=
  Array.getElem?_toList

end Program

namespace FlowGraph

/-- **The outcomes of building the flow graph of a program.** -/
theorem ofProgram_cases (p : Program τ) :
    (p.size = 0 ∧ ofProgram p = .error .emptyProgram) ∨
    (∃ k i, IsLeast {k | p.RepeatsAt k} k ∧ p.at? k = some i ∧
      ofProgram p = .error (.duplicateOffset i.offset)) ∨
    (p.Layable ∧ ∃ g, ofProgram p = .ok g) := by
  rcases build_cases p.labels p.instructions.toList with
    ⟨hnil, herr⟩ | ⟨before, i, after, hsplit, hnodup, hdup, herr⟩ | ⟨g, hg, hne, h⟩
  · exact .inl ⟨by simpa [Program.size] using hnil, herr⟩
  · have hat : ∀ {q : Nat}, p.at? q = (before ++ i :: after)[q]? := by
      intro q
      rw [← hsplit, p.getElem?_toList]
    refine .inr (.inl ⟨before.length, i, ⟨?_, ?_⟩, by simp [hat], herr⟩)
    · obtain ⟨j, hj, ho⟩ := List.mem_map.1 hdup
      obtain ⟨q, hq⟩ := List.mem_iff_getElem?.1 hj
      have hlt := (List.getElem?_eq_some_iff.1 hq).1
      exact ⟨q, j, i, hlt, by rw [hat, List.getElem?_append_left hlt, hq], by simp [hat], ho⟩
    · -- the instructions before are at distinct offsets
      rintro k ⟨q, j, j', hqk, hj, hj', ho⟩
      by_contra hk
      have hk : k < before.length := Nat.lt_of_not_le hk
      rw [hat, List.getElem?_append_left (by omega)] at hj hj'
      have he : (before.map (·.offset))[q]? = (before.map (·.offset))[k]? := by
        rw [List.getElem?_map, List.getElem?_map, hj, hj']
        exact congrArg some ho
      have := (List.getElem?_inj (by simp; omega) hnodup).1 he
      omega
  · refine .inr (.inr ⟨⟨fun hsize => hne ?_, ?_⟩, g, hg⟩)
    · simpa [Program.size] using hsize
    · rintro k ⟨q, i, j, hqk, hi, hj, ho⟩
      rw [← p.getElem?_toList] at hi hj
      have := h.position_unique hi hj ho
      omega

namespace Laid

variable {p : Program τ} {g : FlowGraph τ}

/-- A label has a block iff it has an instruction. -/
theorem mem_offsets_iff (h : g.Laid p.labels p.instructions.toList) {o : Offset}
    (ho : o ∈ p.labels) :
    o ∈ g.blocksInOrder.map (·.2.offset) ↔ ∃ q j, p.at? q = some j ∧ j.offset = o := by
  rw [h.mem_offsets_of_label ho, List.mem_map]
  constructor
  · rintro ⟨j, hj, rfl⟩
    obtain ⟨q, hq⟩ := List.mem_iff_getElem?.1 hj
    exact ⟨q, j, p.getElem?_toList q ▸ hq, rfl⟩
  · rintro ⟨q, j, hj, rfl⟩
    rw [← p.getElem?_toList] at hj
    exact ⟨j, List.mem_of_getElem? hj, rfl⟩

theorem danglesAt_iff (h : g.Laid p.labels p.instructions.toList) {k : Nat} {i : Instruction τ}
    {c : Bool} {t : Offset} (hi : p.at? k = some i) (hb : i.branch? = some (c, t)) :
    p.DanglesAt k ↔ t ∉ g.blocksInOrder.map (·.2.offset) := by
  rw [h.mem_offsets_iff (Program.mem_labels_of_branch hi hb)]
  constructor
  · rintro ⟨i', c', t', hi', hb', hfree⟩ ⟨q, j, hj, ho⟩
    rw [hi] at hi'
    cases hi'
    rw [hb] at hb'
    cases hb'
    exact hfree q j hj ho
  · intro hfree
    exact ⟨i, c, t, hi, hb, fun q j hj ho => hfree ⟨q, j, hj, ho⟩⟩

/-- Nothing is noted in front of the first dangling branch. -/
theorem filter_branchTargets_take (h : g.Laid p.labels p.instructions.toList) {k : Nat}
    (hno : ∀ q < k, ¬ p.DanglesAt q) :
    (branchTargets (p.instructions.toList.take k)).filter
      (fun bt => decide (bt.2 ∉ g.blocksInOrder.map (·.2.offset))) = [] := by
  rw [List.filter_eq_nil_iff]
  intro bt hbt
  obtain ⟨i, hi, hbt⟩ := List.mem_filterMap.1 hbt
  obtain ⟨⟨c, t⟩, hb, rfl⟩ := Option.map_eq_some_iff.1 hbt
  obtain ⟨q, hq⟩ := List.mem_iff_getElem?.1 hi
  rw [List.getElem?_take] at hq
  split at hq
  · rename_i hlt
    rw [p.getElem?_toList] at hq
    rw [decide_eq_true_iff, ← h.danglesAt_iff hq hb]
    exact hno q hlt
  · cases hq

/-- **The first dangling branch of the program is noted first.** -/
theorem dangling_zero (h : g.Laid p.labels p.instructions.toList) {k : Nat} {i : Instruction τ}
    {c : Bool} {t : Offset} (hk : IsLeast {k | p.DanglesAt k} k) (hi : p.at? k = some i)
    (hb : i.branch? = some (c, t)) : g.dangling[0]? = some (i.offset, t) := by
  have hhere := (h.danglesAt_iff hi hb).1 hk.1
  have hbefore := h.filter_branchTargets_take fun q hq hd => Nat.not_le_of_lt hq (hk.2 hd)
  rw [← p.getElem?_toList] at hi
  obtain ⟨hlt, hi⟩ := List.getElem?_eq_some_iff.1 hi
  rw [← Array.getElem?_toList, h.dangling, ← List.take_append_drop k p.instructions.toList,
    branchTargets, List.filterMap_append, List.filter_append]
  rw [branchTargets] at hbefore
  rw [hbefore, List.drop_eq_getElem_cons hlt, hi, List.nil_append,
    List.filterMap_cons_some (by rw [hb]; rfl),
    List.filter_cons_of_pos (by exact decide_eq_true hhere)]
  rfl

theorem dangling_zero_eq_none (h : g.Laid p.labels p.instructions.toList)
    (hno : ∀ k, ¬ p.DanglesAt k) : g.dangling[0]? = none := by
  have hall := h.filter_branchTargets_take (k := p.instructions.toList.length) fun q _ => hno q
  rw [List.take_length] at hall
  rw [← Array.getElem?_toList, h.dangling, hall]
  rfl

end Laid

/-- Every number that is kept in the flow graph is one of its blocks or edges, and every table has
room for all of them. -/
structure InRange (g : FlowGraph τ) : Prop where
  size_outgoing : g.graph.outgoing.size = g.blockCount
  size_incoming : g.graph.incoming.size = g.blockCount
  outgoing_lt : ∀ n, ∀ q ∈ g.graph.outgoing.getD n #[], q < g.edgeCount
  incoming_lt : ∀ n, ∀ q ∈ g.graph.incoming.getD n #[], q < g.edgeCount
  endpoints : ∀ e ∈ g.graph.edges, e.source < g.blockCount ∧ e.target < g.blockCount
  order : ∀ n ∈ g.order, n < g.blockCount
  nodeAt : ∀ (o : Offset) (n : Node), g.nodeAt[o]? = some n → n < g.blockCount
  capacity : g.reached.capacity = g.blockCount

theorem Laid.inRange {labels : Std.TreeSet Offset} {is : List (Instruction τ)} {g : FlowGraph τ}
    (h : g.Laid labels is) : g.InRange := by
  have hlinked := h.layout.linked
  refine ⟨hlinked.size_outgoing, hlinked.size_incoming, fun n q hq => ?_, fun n q hq => ?_,
    fun e he => hlinked.endpoints e (Array.mem_toList_iff.2 he), fun n hn => ?_, fun o n hn => ?_,
    h.capacity⟩
  · exact hlinked.outgoing_lt n q (Array.mem_toList_iff.2 hq)
  · exact hlinked.incoming_lt n q (Array.mem_toList_iff.2 hq)
  · exact h.lt_blockCount (Array.mem_toList_iff.2 hn)
  · obtain ⟨b, hb, -⟩ := Option.map_eq_some_iff.1 ((h.layout.index o n).1 hn)
    exact lt_of_node? hb

/-- Blocks can be replaced. -/
theorem InRange.setBlock {g : FlowGraph τ} (h : g.InRange) (n : Node) (b : Block τ) :
    (g.setBlock n b).InRange := by
  have hcount : (g.setBlock n b).blockCount = g.blockCount := OrderedGraph.nodeCount_modify _ _ _
  constructor
  · exact h.size_outgoing.trans hcount.symm
  · exact h.size_incoming.trans hcount.symm
  · exact h.outgoing_lt
  · exact h.incoming_lt
  · rw [hcount]
    exact h.endpoints
  · rw [hcount]
    exact h.order
  · rw [hcount]
    exact h.nodeAt
  · exact h.capacity.trans hcount.symm

end FlowGraph

end SingleAssignment
