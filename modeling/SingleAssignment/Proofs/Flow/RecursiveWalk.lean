import SingleAssignment.Proofs.Counting
import SingleAssignment.Proofs.Flow.AnyMarks

/-!
# The search as a recursive walk

The search for reaching definitions keeps the nodes it still has to look at on a stack, where a node
can stand several times, and asks for its mark only when the node comes off the stack.  Recursion
needs no stack: a block that passes the local on is left aside until its own predecessors are done.
Both go through the blocks in the same order, so they report the same contributors in the same order.

* `FlowGraph.trace` — the recursive walk, which carries a bound on what it leaves unmarked.
* `DefinitionWalk.run_trace` — **a segment of a stack is worked off as the recursive walk goes
  through its nodes, whatever lies below it.**
* `DefinitionWalk.reaching_eq_traced` — **a search reports what the recursive walk reports, in the
  same order.**
-/

namespace SingleAssignment

variable {τ : Type}

namespace FlowGraph

/-! ## The recursive walk -/

/-- What a walk has marked and found so far. -/
structure Traced where
  marked : List Node := []
  found : List Contributor := []

/-- The node is marked. -/
def Traced.mark (s : Traced) (n : Node) : Traced := { s with marked := n :: s.marked }

/-- The contributor is found last. -/
def Traced.report (s : Traced) (c : Contributor) : Traced := { s with found := s.found ++ [c] }

@[simp] theorem Traced.marked_mark (s : Traced) (n : Node) : (s.mark n).marked = n :: s.marked := rfl

@[simp] theorem Traced.found_mark (s : Traced) (n : Node) : (s.mark n).found = s.found := rfl

@[simp] theorem Traced.marked_report (s : Traced) (c : Contributor) :
    (s.report c).marked = s.marked := rfl

@[simp] theorem Traced.found_report (s : Traced) (c : Contributor) :
    (s.report c).found = s.found ++ [c] := rfl

/-- The number of blocks that are not marked. -/
def unmarked (g : FlowGraph τ) (marked : List Node) : Nat :=
  (List.range g.blockCount).countP (· ∉ marked)

theorem unmarked_cons_lt {g : FlowGraph τ} {n : Node} {b : Block τ} {marked : List Node}
    (hb : g.block? n = some b) (hn : n ∉ marked) :
    g.unmarked (n :: marked) < g.unmarked marked := by
  refine countP_lt_countP (a := n) (fun m hm => ?_) (List.mem_range.2 (lt_of_node? hb)) ?_ ?_
  · simp only [List.mem_cons, not_or, decide_eq_true_eq] at hm ⊢
    exact hm.2
  · simp
  · simpa using hn

/-- Go through the nodes from left to right.  A block without a mark gets one, and either contributes
its export or has its predecessors gone through, before the next node has its turn. -/
def trace (g : FlowGraph τ) (x : Local) (s : Traced) (ns : List Node) :
    { t : Traced // g.unmarked t.marked ≤ g.unmarked s.marked } :=
  match ns with
  | [] => ⟨s, Nat.le_refl _⟩
  | n :: rest =>
      if hn : n ∈ s.marked then g.trace x s rest
      else
        match hb : g.block? n with
        | none => g.trace x s rest
        | some b =>
            have hlt : g.unmarked (s.mark n).marked < g.unmarked s.marked := unmarked_cons_lt hb hn
            match b.exported? x with
            | some y =>
                let t := g.trace x ((s.mark n).report ⟨y, b.offset⟩) rest
                ⟨t.val, Nat.le_trans t.property (Nat.le_of_lt hlt)⟩
            | none =>
                let back := g.trace x (s.mark n) (g.predecessors n)
                have hback := Nat.lt_of_le_of_lt back.property hlt
                let t := g.trace x back.val rest
                ⟨t.val, Nat.le_trans t.property (Nat.le_of_lt hback)⟩
termination_by (g.unmarked s.marked, ns.length)
decreasing_by
  · exact Prod.Lex.right _ (Nat.lt_succ_self _)
  · exact Prod.Lex.right _ (Nat.lt_succ_self _)
  · exact Prod.Lex.left _ _ hlt
  · exact Prod.Lex.left _ _ hlt
  · exact Prod.Lex.left _ _ hback

/-- The contributors that the recursive walk from the predecessors of a node finds. -/
def traced (g : FlowGraph τ) (n : Node) (x : Local) : List Contributor :=
  (g.trace x {} (g.predecessors n)).val.found

section Step

variable {g : FlowGraph τ} {x : Local} {s : Traced} {n : Node} {b : Block τ} (rest : List Node)

theorem trace_nil (g : FlowGraph τ) (x : Local) (s : Traced) : (g.trace x s []).val = s := by
  rw [trace]

theorem trace_marked (hn : n ∈ s.marked) :
    (g.trace x s (n :: rest)).val = (g.trace x s rest).val := by
  rw [trace, dif_pos hn]

theorem trace_exporting (hn : n ∉ s.marked) (hb : g.block? n = some b) {y : Local}
    (hy : b.exported? x = some y) :
    (g.trace x s (n :: rest)).val =
      (g.trace x ((s.mark n).report ⟨y, b.offset⟩) rest).val := by
  rw [trace, dif_neg hn]
  split
  · simp_all
  · rename_i b' hb'
    obtain rfl : b = b' := Option.some.inj (hb.symm.trans hb')
    simp only [hy]

theorem trace_passing (hn : n ∉ s.marked) (hb : g.block? n = some b) (hy : b.exported? x = none) :
    (g.trace x s (n :: rest)).val =
      (g.trace x (g.trace x (s.mark n) (g.predecessors n)).val rest).val := by
  rw [trace, dif_neg hn]
  split
  · simp_all
  · rename_i b' hb'
    obtain rfl : b = b' := Option.some.inj (hb.symm.trans hb')
    simp only [hy]

end Step

end FlowGraph

/-! ## The stack and the recursion -/

namespace DefinitionWalk

open FlowGraph

/-- A bit set holds exactly the marked nodes. -/
def Marks (visited : BitSet) (marked : List Node) : Prop := ∀ i, visited.test i = true ↔ i ∈ marked

theorem Marks.insert_known {visited : BitSet} {marked : List Node} {n : Node}
    (h : Marks visited marked) (hn : n ∈ marked) (hlt : n < visited.capacity) :
    BitSet.insert n visited = .ok false visited := by
  unfold BitSet.insert
  rw [dif_pos hlt, if_pos ((h n).2 hn)]

theorem Marks.insert_new {visited : BitSet} {marked : List Node} {n : Node}
    (h : Marks visited marked) (hn : n ∉ marked) (hlt : n < visited.capacity) :
    ∃ visited', BitSet.insert n visited = .ok true visited' ∧
      visited'.capacity = visited.capacity ∧ Marks visited' (n :: marked) := by
  have hfree : ¬ visited.test n = true := fun ht => hn ((h n).1 ht)
  have hins : BitSet.insert n visited = .ok true (visited.add n hlt) := by
    unfold BitSet.insert
    rw [dif_pos hlt, if_neg hfree]
  refine ⟨visited.add n hlt, hins, rfl, fun i => ?_⟩
  rw [BitSet.test_insert hins, h, List.mem_cons, or_comm]

/-- **A segment of the stack is worked off as the recursive walk goes through its nodes**, whatever
lies below it. -/
theorem run_trace {g : FlowGraph τ} (x : Local)
    (hpred : ∀ n, ∀ m ∈ g.predecessors n, m < g.blockCount) {s : Traced} {ns : List Node}
    (hns : ∀ n ∈ ns, n < g.blockCount) {visited : BitSet} (hcap : g.blockCount ≤ visited.capacity)
    (hmarks : Marks visited s.marked) :
    ∃ visited', g.blockCount ≤ visited'.capacity ∧ Marks visited' (g.trace x s ns).val.marked ∧
      ∀ below, run g x visited (ns ++ below) s.found.toArray =
        run g x visited' below (g.trace x s ns).val.found.toArray := by
  induction s, ns using FlowGraph.trace.induct g x generalizing visited with
  | case1 s =>
      rw [trace_nil]
      exact ⟨visited, hcap, hmarks, fun below => rfl⟩
  | case2 s n rest hn ih =>
      have hlt := Nat.lt_of_lt_of_le (hns n List.mem_cons_self) hcap
      obtain ⟨visited', hcap', hmarks', hrun⟩ :=
        ih (fun m hm => hns m (List.mem_cons_of_mem n hm)) hcap hmarks
      rw [trace_marked rest hn]
      refine ⟨visited', hcap', hmarks', fun below => ?_⟩
      rw [List.cons_append, run_known _ _ (hmarks.insert_known hn hlt), hrun]
  | case3 s n rest hn hb ih =>
      obtain ⟨b, hb'⟩ := node?_of_lt (hns n List.mem_cons_self)
      exact absurd (hb.symm.trans hb') nofun
  | case4 s n rest hn b hb hlt y hy ih =>
      obtain ⟨marked, hins, hsame, hmarked⟩ :=
        hmarks.insert_new hn (Nat.lt_of_lt_of_le (hns n List.mem_cons_self) hcap)
      obtain ⟨visited', hcap', hmarks', hrun⟩ :=
        ih (fun m hm => hns m (List.mem_cons_of_mem n hm)) (hsame ▸ hcap) hmarked
      rw [trace_exporting rest hn hb hy]
      refine ⟨visited', hcap', hmarks', fun below => ?_⟩
      rw [List.cons_append, run_exporting _ _ hins hb hy, ← hrun below]
      simp
  | case5 s n rest hn b hb hlt hy back hback ihback ihrest =>
      -- the predecessors form a segment on top of the rest of the stack
      obtain ⟨marked, hins, hsame, hmarked⟩ :=
        hmarks.insert_new hn (Nat.lt_of_lt_of_le (hns n List.mem_cons_self) hcap)
      obtain ⟨middle, hcap₁, hmarks₁, hrun₁⟩ := ihback (hpred n) (hsame ▸ hcap) hmarked
      obtain ⟨visited', hcap', hmarks', hrun⟩ :=
        ihrest (fun m hm => hns m (List.mem_cons_of_mem n hm)) hcap₁ hmarks₁
      rw [trace_passing rest hn hb hy]
      refine ⟨visited', hcap', hmarks', fun below => ?_⟩
      rw [List.cons_append, run_passing _ _ hins hb hy, ← hrun below, ← hrun₁ (rest ++ below)]
      rfl

end DefinitionWalk

/-- **A search reports what the recursive walk reports, in the same order**, on every flow graph and
whatever marks it is given. -/
theorem DefinitionWalk.reaching_eq_traced {g : FlowGraph τ} (hg : g.Attained) (n : Node) (x : Local)
    (w : DefinitionWalk) : ∃ w', reaching g n x w = .ok (g.traced n x) w' := by
  obtain ⟨marks, hclean, hcap, hreach⟩ := reaching_run g n x w
  have hstart : Marks marks ({} : FlowGraph.Traced).marked := fun i => by simp [hclean i]
  obtain ⟨visited, -, -, hrun⟩ :=
    run_trace x hg.predecessor_lt (hg.predecessor_lt n) hcap hstart
  have hdone := hrun []
  rw [List.append_nil] at hdone
  refine ⟨⟨visited⟩, (hreach _ _).1 (hdone.trans ?_)⟩
  rw [run]
  rfl

section
open FlowGraph

/-- Two ways of different length into the last block, which also branches back. -/
def rejoin : List (Instruction Unit) :=
  [⟨0, (), [], .branch true 2⟩, ⟨1, (), [], .branch true 3⟩, ⟨2, (), [], .branch false 4⟩,
    ⟨3, (), [], .effect⟩, ⟨4, (), [], .branch true 2⟩]

/-- A block that exports `y` as the value of local 7. -/
def exporting (offset : Offset) (y : Local) : Block Unit :=
  { offset, exported := Std.TreeMap.empty.insert ⟨7⟩ y }

/-- In `rejoin` the long way is looked at first, and to its end: the block at 3 is reported on the
way back through the last block, although it is a predecessor of the start itself. -/
theorem rejoin_reported_in_order :
    ∃ g, build (Program.ofList rejoin).labels rejoin = .ok g ∧
      ∃ g', g' = ((g.setBlock 0 (exporting 0 ⟨10⟩)).setBlock 2 (exporting 1 ⟨11⟩)).setBlock 3
          (exporting 3 ⟨12⟩) ∧ g'.Attained ∧
        ∀ w, ∃ w', DefinitionWalk.reaching g' 4 ⟨7⟩ w =
          .ok [⟨⟨10⟩, 0⟩, ⟨⟨11⟩, 1⟩, ⟨⟨12⟩, 3⟩] w' := by
  have hbuild : (build (Program.ofList rejoin).labels rejoin).toOption.any
      (fun g => g.predecessors 1 == [0, 2, 4] && g.predecessors 4 == [1, 3] &&
        (List.range 5).all fun n => g.contribution? ⟨7⟩ n == some none) = true := by
    decide +kernel
  cases hg : build (Program.ofList rejoin).labels rejoin with
  | error e =>
      rw [hg] at hbuild
      cases hbuild
  | ok g =>
      obtain ⟨⟨hpred₁, hpred₄⟩, hseen⟩ : (g.predecessors 1 = [0, 2, 4] ∧ g.predecessors 4 = [1, 3]) ∧
          ∀ n < 5, g.contribution? ⟨7⟩ n = some none := by
        simpa [hg, Except.toOption] using hbuild
      have hblock : ∀ n < 5, ∃ b, g.graph.node? n = some b ∧ b.exported? ⟨7⟩ = none := by
        intro n hn
        have hn := hseen n hn
        simp only [contribution?, Option.map_eq_some_iff, Option.map_eq_none_iff] at hn
        exact hn
      obtain ⟨b₀, hb₀, -⟩ := hblock 0 (by decide)
      obtain ⟨b₁, hb₁, hx₁⟩ := hblock 1 (by decide)
      obtain ⟨b₂, hb₂, -⟩ := hblock 2 (by decide)
      obtain ⟨b₃, hb₃, -⟩ := hblock 3 (by decide)
      obtain ⟨b₄, hb₄, hx₄⟩ := hblock 4 (by decide)
      let g' := ((g.setBlock 0 (exporting 0 ⟨10⟩)).setBlock 2 (exporting 1 ⟨11⟩)).setBlock 3
        (exporting 3 ⟨12⟩)
      have hattained : g'.Attained := .setBlock 3 _ (.setBlock 2 _ (.setBlock 0 _ (.built hg)))
      have hstored : g'.block? 0 = some (exporting 0 ⟨10⟩) ∧ g'.block? 1 = some b₁ ∧
          g'.block? 2 = some (exporting 1 ⟨11⟩) ∧ g'.block? 3 = some (exporting 3 ⟨12⟩) ∧
          g'.block? 4 = some b₄ := by
        simp [g', block?, setBlock, OrderedGraph.node?_modify, hb₀, hb₁, hb₂, hb₃, hb₄]
      obtain ⟨h₀, h₁, h₂, h₃, h₄⟩ := hstored
      have hpred₄ : g'.predecessors 4 = [1, 3] := hpred₄
      have hback : (g'.trace ⟨7⟩ (({} : Traced).mark 1) [0, 2, 4]).val =
          ⟨[3, 4, 2, 0, 1], [⟨⟨10⟩, 0⟩, ⟨⟨11⟩, 1⟩, ⟨⟨12⟩, 3⟩]⟩ := by
        rw [trace_exporting _ (by simp) h₀ (y := ⟨10⟩) (by decide),
          trace_exporting _ (by simp) h₂ (y := ⟨11⟩) (by decide),
          trace_passing _ (by simp) h₄ hx₄, hpred₄, trace_marked _ (by simp),
          trace_exporting _ (by simp) h₃ (y := ⟨12⟩) (by decide), trace_nil, trace_nil]
        rfl
      have htraced : g'.traced 4 ⟨7⟩ = [⟨⟨10⟩, 0⟩, ⟨⟨11⟩, 1⟩, ⟨⟨12⟩, 3⟩] := by
        unfold traced
        rw [hpred₄, trace_passing _ (by simp) h₁ hx₁, show g'.predecessors 1 = [0, 2, 4] from hpred₁,
          hback, trace_marked _ (by simp), trace_nil]
      refine ⟨g, rfl, g', rfl, hattained, fun w => ?_⟩
      obtain ⟨w', hw'⟩ := DefinitionWalk.reaching_eq_traced hattained 4 ⟨7⟩ w
      exact ⟨w', htraced ▸ hw'⟩

end

end SingleAssignment
