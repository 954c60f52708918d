import SingleAssignment.Proofs.Counting
import SingleAssignment.Proofs.Flow.Refusal

/-!
# The counts of a flow graph

A flow graph knows how many blocks it has, how many of them were entered and how many branches
dangle.  All three can be counted in the program: entered blocks start at the leaders, and every
other block stands for a branch target without an instruction.

* `FlowGraph.Laid.exists_starts` — entered blocks and leaders correspond one to one.
* `FlowGraph.Laid.reachedCount_eq` — **the entered blocks are as many as the leaders.**
* `FlowGraph.Laid.blockCount_eq` — **the other blocks are as many as the stray targets.**
* `FlowGraph.Laid.size_dangling` — **the branches noted are those that dangle.**
-/

namespace SingleAssignment

variable {τ : Type}

/-- The offsets that branches lead to and that have no instruction. -/
def Program.strayTargets (p : Program τ) : Set Offset :=
  {t | (∃ k i c, p.at? k = some i ∧ i.branch? = some (c, t)) ∧
    ∀ q j, p.at? q = some j → j.offset ≠ t}

theorem Program.finite_strayTargets (p : Program τ) : p.strayTargets.Finite := by
  refine p.labels.toList.finite_toSet.subset ?_
  rintro t ⟨⟨k, i, c, hi, hb⟩, -⟩
  exact Std.TreeSet.mem_toList.2 (mem_labels_of_branch hi hb)

namespace FlowGraph.Laid

section Blocks

variable {labels : Std.TreeSet Offset} {is : List (Instruction τ)} {g : FlowGraph τ}

/-- Entered blocks and leaders correspond one to one. -/
theorem exists_starts (h : g.Laid labels is) :
    ∃ start : Node → Nat,
      (∀ n ∈ g.order.toList, ∃ b, Placed g.blocksInOrder n b (start n)) ∧
      Set.BijOn start {n | n ∈ g.order.toList} {k | Leads labels is k} := by
  have hplaced : ∀ n ∈ g.order.toList, ∃ start b, Placed g.blocksInOrder n b start := by
    intro n hn
    obtain ⟨b, start, hp⟩ := h.mem_order_iff.1 hn
    exact ⟨start, b, hp⟩
  choose! start hstart using hplaced
  refine ⟨start, hstart, ?_, ?_, ?_⟩
  · intro n hn
    exact h.leads_iff.2 ⟨n, hstart n hn⟩
  · intro n hn m hm heq
    obtain ⟨b, hp⟩ := hstart n hn
    obtain ⟨c, hc⟩ := hstart m hm
    exact (hp.unique hc (h.size_pos hp) (h.size_pos hc) (by simp [heq])).1
  · intro k hk
    obtain ⟨n, b, hp⟩ := h.leads_iff.1 hk
    have hn := h.mem_order_iff.2 ⟨b, k, hp⟩
    obtain ⟨c, hc⟩ := hstart n hn
    exact ⟨n, hn, (Placed.unique_of_node h.layout.nodup hp hc).2.symm⟩

/-- **The entered blocks are as many as the leaders.** -/
theorem reachedCount_eq (h : g.Laid labels is) :
    g.reachedCount = {k | Leads labels is k}.ncard := by
  obtain ⟨start, -, hstarts⟩ := h.exists_starts
  rw [← hstarts.image_eq, hstarts.injOn.ncard_image, ncard_of_nodup h.nodup_order,
    Array.length_toList]
  rfl

theorem nodup_offsets (h : g.Laid labels is) : (g.blocksInOrder.map (·.2.offset)).Nodup := by
  refine List.Nodup.map_on ?_ (List.Nodup.of_map (·.1) h.layout.nodup)
  rintro ⟨n, b⟩ hn ⟨m, c⟩ hm he
  obtain ⟨s, hp⟩ := exists_placed_of_mem hn
  obtain ⟨t, hq⟩ := exists_placed_of_mem hm
  have ho : offsetAt g.graph m = some b.offset := (h.offsetAt_eq hq).trans (congrArg some he.symm)
  obtain rfl := h.layout.node_unique (h.offsetAt_eq hp) ho
  obtain ⟨rfl, -⟩ := Placed.unique_of_node h.layout.nodup hp hq
  rfl

theorem reachedCount_eq_ncard_offsets (h : g.Laid labels is) :
    g.reachedCount = {o | o ∈ g.blocksInOrder.map (·.2.offset)}.ncard := by
  rw [ncard_of_nodup h.nodup_offsets, List.length_map, ← List.length_map (f := (·.1)), ← h.order,
    Array.length_toList]
  rfl

end Blocks

variable {p : Program τ} {g : FlowGraph τ}

/-- A block was entered, or its offset is a stray target. -/
theorem mem_blockOffsets_iff (h : g.Laid p.labels p.instructions.toList) {o : Offset} :
    o ∈ blockOffsets g.graph ↔
      o ∈ g.blocksInOrder.map (·.2.offset) ∨ o ∈ p.strayTargets := by
  constructor
  · intro ho
    rw [h.met, List.mem_eraseDups] at ho
    obtain ⟨⟨i, k⟩, hik, ho⟩ := List.mem_flatMap.1 ho
    have hi : p.at? k = some i := by
      rw [← p.getElem?_toList]
      exact List.mem_zipIdx_iff_getElem?.1 hik
    rcases List.mem_append.1 ho with ho | ho
    · split at ho
      · rename_i hlead
        obtain ⟨n, b, hp⟩ := h.leads_iff.1 hlead
        obtain ⟨j, hj, -, hoffset⟩ := h.exists_head hp
        rw [p.getElem?_toList, hi] at hj
        cases hj
        rw [List.mem_singleton.1 ho, hoffset]
        exact .inl (List.mem_map.2 ⟨(n, b), hp.mem, rfl⟩)
      · cases ho
    · obtain ⟨⟨c, t⟩, hb, rfl⟩ := Option.map_eq_some_iff.1 (Option.mem_toList.1 ho)
      by_cases hoccupied : ∃ q j, p.at? q = some j ∧ j.offset = t
      · exact .inl ((h.mem_offsets_iff (Program.mem_labels_of_branch hi hb)).2 hoccupied)
      · exact .inr ⟨⟨k, i, c, hi, hb⟩, fun q j hj ho => hoccupied ⟨q, j, hj, ho⟩⟩
  · rintro (ho | ⟨⟨k, i, c, hi, hb⟩, -⟩)
    · obtain ⟨⟨n, b⟩, hq, rfl⟩ := List.mem_map.1 ho
      obtain ⟨s, hp⟩ := exists_placed_of_mem hq
      exact mem_blockOffsets.2 ⟨n, h.offsetAt_eq hp⟩
    · have hbranch : (i.offset, o) ∈ branchTargets p.instructions.toList := by
        refine List.mem_filterMap.2 ⟨i, ?_, ?_⟩
        · exact Array.mem_toList_iff.2 (Array.mem_of_getElem? hi)
        · rw [hb]
          rfl
      rw [h.met, List.mem_eraseDups]
      exact mem_offsetsMet_of_branch hbranch

/-- **The blocks that were not entered are as many as the stray targets.** -/
theorem blockCount_eq (h : g.Laid p.labels p.instructions.toList) :
    g.blockCount = g.reachedCount + p.strayTargets.ncard := by
  have hunion : {o | o ∈ blockOffsets g.graph} =
      {o | o ∈ g.blocksInOrder.map (·.2.offset)} ∪ p.strayTargets :=
    Set.ext fun o => h.mem_blockOffsets_iff
  have hdisjoint : Disjoint {o | o ∈ g.blocksInOrder.map (·.2.offset)} p.strayTargets := by
    refine Set.disjoint_left.2 ?_
    rintro o ho ⟨⟨k, i, c, hi, hb⟩, hstray⟩
    obtain ⟨q, j, hj, hoffset⟩ := (h.mem_offsets_iff (Program.mem_labels_of_branch hi hb)).1 ho
    exact hstray q j hj hoffset
  calc g.blockCount
      = {o | o ∈ blockOffsets g.graph}.ncard := by
        rw [ncard_of_nodup h.layout.nodup_blockOffsets, blockOffsets, List.length_map,
          Array.length_toList]
        rfl
    _ = g.reachedCount + p.strayTargets.ncard := by
        rw [hunion, Set.ncard_union_eq hdisjoint (List.finite_toSet _) p.finite_strayTargets,
          ← h.reachedCount_eq_ncard_offsets]

/-- **The branches noted are those that dangle.** -/
theorem size_dangling (h : g.Laid p.labels p.instructions.toList) :
    g.dangling.size = {k | p.DanglesAt k}.ncard := by
  rw [← Array.length_toList, h.dangling, ← List.countP_eq_length_filter, branchTargets,
    List.countP_filterMap, countP_eq_ncard]
  congr 1
  ext k
  constructor
  · rintro ⟨i, hi, hq⟩
    rw [p.getElem?_toList] at hi
    cases hb : i.branch? with
    | none => simp [hb] at hq
    | some ct =>
        obtain ⟨c, t⟩ := ct
        refine (h.danglesAt_iff hi hb).2 ?_
        simpa [hb] using hq
  · intro hk
    obtain ⟨i, c, t, hi, hb, -⟩ := id hk
    refine ⟨i, p.getElem?_toList k ▸ hi, ?_⟩
    simpa [hb] using (h.danglesAt_iff hi hb).1 hk

end FlowGraph.Laid

end SingleAssignment
