import SingleAssignment.Proofs.Flow.Scan
import SingleAssignment.Proofs.Flow.Search

/-!
# The search on any flow graph, with any marks

A flow graph comes out of a scan, and after that its blocks may be replaced, with borders that have
nothing to do with their instructions.  The search for reaching definitions relies on the edges only,
so it answers on every such flow graph; and since it starts from wiped marks, earlier searches, on
this flow graph or on another one, leave no trace in the answer.

* `FlowGraph.Attained` — built by a scan, with any blocks replaced since.
* `FlowGraph.supplies_iff_route` — supplying blocks are found along explicit routes of edges.
* `DefinitionWalk.run_agree` — the walk only depends on which nodes are marked.
* `FlowGraph.Attained.mapM_reachingDefinitions` — **the marks of one search serve for all
  searches.**
* `DefinitionWalk.reaching_exact` — **a search reports each block that exports the local and has a
  route on which no other block exports it, once, whatever marks it is given.**
-/

namespace SingleAssignment

variable {τ : Type}

namespace BitSet

/-- Two sets with the same members answer an insertion alike and have the same members after it. -/
theorem insert_agree {s s' t : BitSet} {i : Nat} {new : Bool} (hsame : ∀ j, t.test j = s.test j)
    (hi : i < t.capacity) (h : insert i s = .ok new s') :
    ∃ t', insert i t = .ok new t' ∧ t'.capacity = t.capacity ∧ ∀ j, t'.test j = s'.test j := by
  cases new with
  | false =>
      have hknown := test_eq_true_of_insert_false h
      refine ⟨t, ?_, rfl, ?_⟩
      · simp [insert, hi, hsame, hknown]
      · rwa [insert_false h]
  | true =>
      obtain ⟨hs, hfree, rfl⟩ := insert_true h
      refine ⟨t.add i hi, ?_, rfl, fun j => ?_⟩
      · simp [insert, hi, hsame, hfree]
      · rw [test_add, test_add, hsame]

end BitSet

namespace FlowGraph

/-! ## Flow graphs with replaced blocks -/

/-- A flow graph that was built by a scan, and whose blocks may have been replaced since. -/
inductive Attained : FlowGraph τ → Prop where
  | built {labels : Std.TreeSet Offset} {is : List (Instruction τ)} {g : FlowGraph τ} :
      build labels is = .ok g → Attained g
  | setBlock {g : FlowGraph τ} (n : Node) (b : Block τ) : Attained g → Attained (g.setBlock n b)

namespace Attained

variable {g : FlowGraph τ}

theorem linked (h : g.Attained) : g.graph.Linked := by
  induction h with
  | built hbuild => exact (build_laid hbuild).layout.linked
  | setBlock n b _ ih => exact ih.modify n _

theorem predecessor_lt (h : g.Attained) (n m : Node) (hm : m ∈ g.predecessors n) :
    m < g.blockCount := by
  obtain ⟨e, he, rfl, -⟩ := h.linked.mem_predecessors.1 hm
  exact (h.linked.endpoints e he).1

theorem exists_predecessor (h : g.Attained) {n m : Node} (hm : m ∈ g.predecessors n) :
    ∃ b, g.block? m = some b :=
  node?_of_lt (h.predecessor_lt n m hm)

theorem mem_predecessors (h : g.Attained) {n m : Node} :
    m ∈ g.predecessors n ↔ n ∈ g.successors m := by
  unfold predecessors successors
  rw [h.linked.mem_predecessors, h.linked.mem_successors]

end Attained

/-! ## Routes -/

/-- Edges lead from `d` to `n` through the nodes `between`, in this order. -/
def Route (g : FlowGraph τ) (d : Node) (between : List Node) (n : Node) : Prop :=
  List.IsChain (fun a b => b ∈ g.successors a) (d :: (between ++ [n]))

theorem route_concat {g : FlowGraph τ} {d m n : Node} {between : List Node} :
    g.Route d (between ++ [m]) n ↔ g.Route d between m ∧ n ∈ g.successors m := by
  unfold Route
  rw [← List.cons_append, List.isChain_append, ← List.cons_append, List.getLast?_concat]
  simp

/-- **A block supplies a node along a route on which no block in between writes.** -/
theorem supplies_iff_route {g : FlowGraph τ} (h : g.Attained) {writes : Node → Prop}
    {d n : Node} : g.Supplies writes d n ↔
      writes d ∧ ∃ between, g.Route d between n ∧ ∀ m ∈ between, ¬ writes m := by
  constructor
  · intro hsup
    refine ⟨hsup.writes, ?_⟩
    induction hsup with
    | direct hpred _ =>
        exact ⟨[], by simpa [Route] using h.mem_predecessors.1 hpred, by simp⟩
    | @through m n hpred hw _ ih =>
        obtain ⟨between, hroute, hfree⟩ := ih
        refine ⟨between ++ [m], route_concat.2 ⟨hroute, h.mem_predecessors.1 hpred⟩, ?_⟩
        intro k hk
        rcases List.mem_append.1 hk with hk | hk
        · exact hfree k hk
        · rw [List.mem_singleton.1 hk]
          exact hw
  · rintro ⟨hd, between, hroute, hfree⟩
    induction between using List.reverseRecOn generalizing n with
    | nil => exact .direct (h.mem_predecessors.2 (by simpa [Route] using hroute)) hd
    | append_singleton between m ih =>
        obtain ⟨hroute, hlast⟩ := route_concat.1 hroute
        refine .through (h.mem_predecessors.2 hlast) (hfree m (by simp)) (ih hroute ?_)
        exact fun k hk => hfree k (List.mem_append_left _ hk)

end FlowGraph

/-! ## Marks of different origin -/

namespace DefinitionWalk

/-- **The walk depends on its marks only through the nodes they mark.** -/
theorem run_agree {g : FlowGraph τ} {x : Local} {visited visited' marks : BitSet}
    {stack : List Node} {found : Array Contributor} {cs : List Contributor}
    (hmarks : ∀ i, marks.test i = visited.test i) (hstack : ∀ n ∈ stack, n < marks.capacity)
    (hpred : ∀ n, ∀ m ∈ g.predecessors n, m < marks.capacity)
    (h : run g x visited stack found = .ok cs visited') :
    ∃ marks', run g x marks stack found = .ok cs marks' := by
  fun_induction run g x visited stack found generalizing marks with
  | case1 visited found =>
      cases h
      exact ⟨marks, by rw [run]⟩
  | case2 => cases h
  | case3 found n rest marked hins ih =>
      obtain ⟨marks', hins', hcap, hmarks'⟩ :=
        BitSet.insert_agree hmarks (hstack n List.mem_cons_self) hins
      rw [run_known rest found hins']
      refine ih hmarks' (fun m hm => ?_) (fun k m hm => hcap ▸ hpred k m hm) h
      exact hcap ▸ hstack m (List.mem_cons_of_mem n hm)
  | case4 visited found n rest marked hins _ hb ih =>
      obtain ⟨marks', hins', hcap, hmarks'⟩ :=
        BitSet.insert_agree hmarks (hstack n List.mem_cons_self) hins
      rw [run_missing rest found hins' hb]
      refine ih hmarks' (fun m hm => ?_) (fun k m hm => hcap ▸ hpred k m hm) h
      exact hcap ▸ hstack m (List.mem_cons_of_mem n hm)
  | case5 visited found n rest marked hins _ b hb y hy ih =>
      obtain ⟨marks', hins', hcap, hmarks'⟩ :=
        BitSet.insert_agree hmarks (hstack n List.mem_cons_self) hins
      rw [run_exporting rest found hins' hb hy]
      refine ih hmarks' (fun m hm => ?_) (fun k m hm => hcap ▸ hpred k m hm) h
      exact hcap ▸ hstack m (List.mem_cons_of_mem n hm)
  | case6 visited found n rest marked hins _ b hb hy ih =>
      obtain ⟨marks', hins', hcap, hmarks'⟩ :=
        BitSet.insert_agree hmarks (hstack n List.mem_cons_self) hins
      rw [run_passing rest found hins' hb hy]
      refine ih hmarks' (fun m hm => ?_) (fun k m hm => hcap ▸ hpred k m hm) h
      rcases List.mem_append.1 hm with hm | hm
      · exact hcap ▸ hpred n m hm
      · exact hcap ▸ hstack m (List.mem_cons_of_mem n hm)

/-- Every search is a walk from wiped marks that are large enough for the flow graph. -/
theorem reaching_run (g : FlowGraph τ) (n : Node) (x : Local) (w : DefinitionWalk) :
    ∃ marks : BitSet, (∀ i, marks.test i = false) ∧ g.blockCount ≤ marks.capacity ∧
      ∀ cs visited, run g x marks (g.predecessors n) #[] = .ok cs visited ↔
        reaching g n x w = .ok cs ⟨visited⟩ := by
  refine ⟨if w.visited.capacity < g.blockCount then BitSet.empty g.blockCount
    else w.visited.clear, fun i => ?_, ?_, fun cs visited => ?_⟩
  · split
    · exact BitSet.test_empty _ i
    · exact BitSet.test_clear _ i
  · split
    · exact Nat.le_refl _
    · rename_i hge
      exact Nat.not_lt.1 hge
  · unfold reaching
    generalize (if w.visited.capacity < g.blockCount then BitSet.empty g.blockCount
      else w.visited.clear) = marks
    cases hrun : run g x marks (g.predecessors n) #[] with
    | ok found visited' => simp [hrun]
    | error e visited' => simp [hrun]

/-- **What a search answers does not depend on the marks it is given.** -/
theorem reaching_agree {g : FlowGraph τ} {n : Node} {x : Local} {cs : List Contributor}
    {w w' : DefinitionWalk} (hpred : ∀ n, ∀ m ∈ g.predecessors n, m < g.blockCount)
    (h : reaching g n x w = .ok cs w') (v : DefinitionWalk) :
    ∃ v', reaching g n x v = .ok cs v' := by
  obtain ⟨marks, hclean, -, hrun⟩ := reaching_run g n x w
  obtain ⟨marks', hclean', hcap, hrun'⟩ := reaching_run g n x v
  have hlt : ∀ n, ∀ m ∈ g.predecessors n, m < marks'.capacity :=
    fun n m hm => Nat.lt_of_lt_of_le (hpred n m hm) hcap
  have hsame : ∀ i, marks'.test i = marks.test i := fun i => by rw [hclean, hclean']
  obtain ⟨visited, hwalk⟩ := run_agree hsame (hlt n) hlt ((hrun cs w'.visited).2 h)
  exact ⟨⟨visited⟩, (hrun' cs visited).1 hwalk⟩

end DefinitionWalk

/-- With the marks that an earlier search has left, a search answers what it answers with fresh
ones. -/
theorem FlowGraph.Attained.reachingDefinitions_eq {g : FlowGraph τ} (hg : g.Attained) (n : Node)
    (x : Local) (w : DefinitionWalk) :
    ∃ cs w', DefinitionWalk.reaching g n x w = .ok cs w' ∧ g.reachingDefinitions n x = .ok cs := by
  obtain ⟨cs, v, hfresh⟩ := DefinitionWalk.reaching_ok hg.predecessor_lt n x (.ofGraph g)
  obtain ⟨w', hmarked⟩ := DefinitionWalk.reaching_agree hg.predecessor_lt hfresh w
  refine ⟨cs, w', hmarked, ?_⟩
  rw [FlowGraph.reachingDefinitions, hfresh]

/-- **The marks of one search serve for all imports of a flow graph**, renamed or not: searches that
hand their marks on answer what each of them answers with fresh ones. -/
theorem FlowGraph.Attained.mapM_reachingDefinitions {g : FlowGraph τ} (hg : g.Attained)
    (imports : List (Node × Local)) (w : DefinitionWalk) :
    ∃ css w', imports.mapM (fun i => DefinitionWalk.reaching g i.1 i.2) w = .ok css w' ∧
      imports.mapM (fun i => g.reachingDefinitions i.1 i.2) = .ok css := by
  induction imports generalizing w with
  | nil => exact ⟨[], w, rfl, rfl⟩
  | cons i imports ih =>
      obtain ⟨cs, w₁, hmarked, hfresh⟩ := hg.reachingDefinitions_eq i.1 i.2 w
      obtain ⟨css, w₂, hrest, hrest'⟩ := ih w₁
      refine ⟨cs :: css, w₂, ?_, ?_⟩
      · rw [List.mapM_cons, Outcome.run_bind_ok hmarked, Outcome.run_bind_ok hrest]
        rfl
      · rw [List.mapM_cons, hfresh, hrest']
        rfl

/-- **A search reports exactly the blocks that export the local and have a route to the node on which
no block in between exports it**, each once, with its export and its offset.  It does so whatever
borders the blocks carry, whether or not the node exists, and whatever marks the search is given. -/
theorem DefinitionWalk.reaching_exact {g : FlowGraph τ} (hg : g.Attained) (n : Node) (x : Local) :
    ∃ cs ds, (∀ w, ∃ w', reaching g n x w = .ok cs w') ∧
      List.Forall₂ (g.ContributesAs x) ds cs ∧ ds.Nodup ∧
      ∀ d, d ∈ ds ↔ g.Exports x d ∧
        ∃ between, g.Route d between n ∧ ∀ m ∈ between, ¬ g.Exports x m := by
  obtain ⟨cs, w', hfresh⟩ := reaching_ok hg.predecessor_lt n x (.ofGraph g)
  obtain ⟨ds, hall, hnodup, hmem⟩ := reaching_found hg.exists_predecessor hfresh
  refine ⟨cs, ds, reaching_agree hg.predecessor_lt hfresh, hall, hnodup, fun d => ?_⟩
  rw [hmem, FlowGraph.supplies_iff_route hg]

/-- A block that branches back to itself, and a way out. -/
def spin : List (Instruction Unit) :=
  [⟨0, (), [], .branch true 0⟩, ⟨1, (), [], .branch false 5⟩]

/-- A block with an export that no instruction makes. -/
def handMade : Block Unit := { offset := 0, exported := Std.TreeMap.empty.insert ⟨3⟩ ⟨9⟩ }

/-- With `handMade` as the first block of `spin`, the search from that block comes back to it. -/
theorem spin_reaches_itself :
    ∃ g, FlowGraph.build (Program.ofList spin).labels spin = .ok g ∧
      (g.setBlock 0 handMade).Attained ∧ (g.setBlock 0 handMade).Route 0 [] 0 ∧
      ∃ cs ds, (∀ w, ∃ w', DefinitionWalk.reaching (g.setBlock 0 handMade) 0 ⟨3⟩ w = .ok cs w') ∧
        List.Forall₂ ((g.setBlock 0 handMade).ContributesAs ⟨3⟩) ds cs ∧ 0 ∈ ds := by
  have hbuild : (FlowGraph.build (Program.ofList spin).labels spin).toOption.any
      (fun g => g.successors 0 == [0, 1] && g.blockCount == 3) = true := by decide +kernel
  cases hg : FlowGraph.build (Program.ofList spin).labels spin with
  | error e =>
      rw [hg] at hbuild
      cases hbuild
  | ok g =>
      obtain ⟨hsucc, hcount⟩ : g.successors 0 = [0, 1] ∧ g.blockCount = 3 := by
        simpa [hg, Except.toOption] using hbuild
      have hlt : 0 < g.graph.nodeCount := by
        rw [show g.graph.nodeCount = 3 from hcount]
        decide
      obtain ⟨b, hb⟩ := node?_of_lt hlt
      have hattained : (g.setBlock 0 handMade).Attained := .setBlock 0 handMade (.built hg)
      have hself : (g.setBlock 0 handMade).Route 0 [] 0 := by
        have hedge : 0 ∈ g.successors 0 := by simp [hsucc]
        exact List.isChain_pair.2 hedge
      have hblock : (g.setBlock 0 handMade).block? 0 = some handMade := by
        simp [FlowGraph.block?, FlowGraph.setBlock, OrderedGraph.node?_modify, hb]
      obtain ⟨cs, ds, hcs, hall, -, hmem⟩ := DefinitionWalk.reaching_exact hattained 0 ⟨3⟩
      have hzero : 0 ∈ ds :=
        (hmem 0).2 ⟨⟨handMade, ⟨9⟩, hblock, by decide⟩, [], hself, by simp⟩
      exact ⟨g, rfl, hattained, hself, cs, ds, hcs, hall, hzero⟩

end SingleAssignment
