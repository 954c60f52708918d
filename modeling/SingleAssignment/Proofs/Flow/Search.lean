import SingleAssignment.Flow.Reaching
import SingleAssignment.Proofs.BitSet
import SingleAssignment.Proofs.Flow.Arrival
import SingleAssignment.Proofs.Lockstep

/-!
# The search finds exactly the supplying blocks

The search of `DefinitionWalk.run` marks every block it pops.  What it still has to find is said by
`Trail`: a way back from a block on the stack through unmarked blocks that do not export the local,
up to an unmarked block that does.

* `trail_mark_exporting`, `trail_mark_passing` — marking a popped block and dealing with it leaves
  what is still to be found unchanged.
* `DefinitionWalk.run_found` — the search reports each block to be found once.
* `DefinitionWalk.reaching_ok`, `DefinitionWalk.reaching_found` — **a search has an answer, and it
  reports each supplying block once.**
* `FlowGraph.agree_reachingDefinitions` — the search sees of a block only what it contributes.
-/

namespace SingleAssignment

variable {τ : Type}

namespace FlowGraph

/-- The block at `n` exports a value of `x`. -/
def Exports (g : FlowGraph τ) (x : Local) (n : Node) : Prop :=
  ∃ b y, g.block? n = some b ∧ b.exported? x = some y

/-- A block at `n` exists and does not export `x`. -/
def Passes (g : FlowGraph τ) (x : Local) (n : Node) : Prop :=
  ∃ b, g.block? n = some b ∧ b.exported? x = none

theorem Passes.not_exports {g : FlowGraph τ} {x : Local} {n : Node} (h : g.Passes x n) :
    ¬ g.Exports x n := by
  rintro ⟨b, y, hb, hy⟩
  obtain ⟨b', hb', hn⟩ := h
  rw [hb] at hb'
  cases hb'
  rw [hy] at hn
  cases hn

/-- A way back from a block to an exporting block, through blocks that pass and carry no mark. -/
inductive Trail (g : FlowGraph τ) (x : Local) (marked : Node → Prop) : Node → Node → Prop where
  | here {d : Node} : ¬ marked d → g.Exports x d → Trail g x marked d d
  | back {n m d : Node} : ¬ marked n → g.Passes x n → m ∈ g.predecessors n →
      Trail g x marked m d → Trail g x marked n d

namespace Trail

variable {g : FlowGraph τ} {x : Local} {marked marked' : Node → Prop} {n m d : Node}

theorem not_marked_start (h : g.Trail x marked n d) : ¬ marked n := by
  cases h with
  | here hd _ => exact hd
  | back hn _ _ _ => exact hn

theorem not_marked_end (h : g.Trail x marked n d) : ¬ marked d := by
  induction h with
  | here hd _ => exact hd
  | back _ _ _ _ ih => exact ih

theorem mono (hm : ∀ n, marked n → marked' n) (h : g.Trail x marked' n d) :
    g.Trail x marked n d := by
  induction h with
  | here hd hx => exact .here (fun hn => hd (hm _ hn)) hx
  | back hn hp hpred _ ih => exact .back (fun hn' => hn (hm _ hn')) hp hpred ih

/-- Marking an exporting block cuts no trail but those that end in it. -/
theorem mark_exporting {k : Node} (hk : g.Exports x k) (hmark : ∀ n, marked' n ↔ marked n ∨ n = k)
    (h : g.Trail x marked n d) : d = k ∨ g.Trail x marked' n d := by
  induction h with
  | @here d hd hx =>
      by_cases he : d = k
      · exact .inl he
      · exact .inr (.here (fun hm => ((hmark d).1 hm).elim hd he) hx)
  | @back n m d hn hp hpred _ ih =>
      rcases ih with he | ht
      · exact .inl he
      · refine .inr (.back (fun hm => ?_) hp hpred ht)
        rcases (hmark n).1 hm with hm | rfl
        · exact hn hm
        · exact hp.not_exports hk

/-- Marking a passing block: a trail through it goes on from one of its predecessors. -/
theorem mark_passing {k : Node} (hk : g.Passes x k) (hmark : ∀ n, marked' n ↔ marked n ∨ n = k)
    (h : g.Trail x marked n d) :
    (∃ m ∈ g.predecessors k, g.Trail x marked' m d) ∨ g.Trail x marked' n d := by
  induction h with
  | @here d hd hx =>
      refine .inr (.here (fun hm => ?_) hx)
      rcases (hmark d).1 hm with hm | rfl
      · exact hd hm
      · exact hk.not_exports hx
  | @back n m d hn hp hpred _ ih =>
      rcases ih with hcut | ht
      · exact .inl hcut
      · by_cases he : n = k
        · subst he
          exact .inl ⟨m, hpred, ht⟩
        · exact .inr (.back (fun hm => ((hmark n).1 hm).elim hn he) hp hpred ht)

end Trail

/-! ## What is still to be found -/

section Pending

variable {g : FlowGraph τ} {x : Local} {marked marked' : Node → Prop} {n d : Node}
  {rest : List Node}

theorem trail_skip (hn : marked n ∨ g.block? n = none) :
    (∃ s ∈ n :: rest, g.Trail x marked s d) ↔ ∃ s ∈ rest, g.Trail x marked s d := by
  constructor
  · rintro ⟨s, hs, ht⟩
    rcases List.mem_cons.1 hs with rfl | hs
    · rcases hn with hn | hn
      · exact absurd hn ht.not_marked_start
      · cases ht with
        | here _ hx =>
            obtain ⟨b, _, hb, _⟩ := hx
            rw [hn] at hb
            cases hb
        | back _ hp _ _ =>
            obtain ⟨b, hb, _⟩ := hp
            rw [hn] at hb
            cases hb
    · exact ⟨s, hs, ht⟩
  · rintro ⟨s, hs, ht⟩
    exact ⟨s, List.mem_cons_of_mem _ hs, ht⟩

theorem trail_mark_missing (hn : g.block? n = none) (hmark : ∀ m, marked' m ↔ marked m ∨ m = n) :
    (∃ s ∈ n :: rest, g.Trail x marked s d) ↔ ∃ s ∈ rest, g.Trail x marked' s d := by
  rw [trail_skip (.inr hn)]
  have hsame : ∀ s, g.Trail x marked s d ↔ g.Trail x marked' s d := by
    intro s
    constructor
    · intro ht
      induction ht with
      | @here d hd hx =>
          refine .here (fun hm => ?_) hx
          rcases (hmark d).1 hm with hm | rfl
          · exact hd hm
          · obtain ⟨b, _, hb, _⟩ := hx
            rw [hn] at hb
            cases hb
      | @back k m d hk hp hpred _ ih =>
          refine .back (fun hm => ?_) hp hpred ih
          rcases (hmark k).1 hm with hm | rfl
          · exact hk hm
          · obtain ⟨b, hb, _⟩ := hp
            rw [hn] at hb
            cases hb
    · exact Trail.mono fun m hm => (hmark m).2 (.inl hm)
  simp only [hsame]

theorem trail_mark_exporting (hn : ¬ marked n) (hx : g.Exports x n)
    (hmark : ∀ m, marked' m ↔ marked m ∨ m = n) :
    (∃ s ∈ n :: rest, g.Trail x marked s d) ↔ d = n ∨ ∃ s ∈ rest, g.Trail x marked' s d := by
  constructor
  · rintro ⟨s, hs, ht⟩
    rcases List.mem_cons.1 hs with rfl | hs
    · cases ht with
      | here _ _ => exact .inl rfl
      | back _ hp _ _ => exact absurd hx hp.not_exports
    · exact (ht.mark_exporting hx hmark).imp_right fun ht' => ⟨s, hs, ht'⟩
  · rintro (rfl | ⟨s, hs, ht⟩)
    · exact ⟨d, List.mem_cons_self, .here hn hx⟩
    · exact ⟨s, List.mem_cons_of_mem _ hs, ht.mono fun m hm => (hmark m).2 (.inl hm)⟩

theorem trail_mark_passing (hn : ¬ marked n) (hp : g.Passes x n)
    (hmark : ∀ m, marked' m ↔ marked m ∨ m = n) :
    (∃ s ∈ n :: rest, g.Trail x marked s d) ↔
      ∃ s ∈ g.predecessors n ++ rest, g.Trail x marked' s d := by
  constructor
  · rintro ⟨s, hs, ht⟩
    rcases ht.mark_passing hp hmark with ⟨m, hm, ht'⟩ | ht'
    · exact ⟨m, List.mem_append_left _ hm, ht'⟩
    · rcases List.mem_cons.1 hs with rfl | hs
      · exact absurd ((hmark s).2 (.inr rfl)) ht'.not_marked_start
      · exact ⟨s, List.mem_append_right _ hs, ht'⟩
  · rintro ⟨s, hs, ht⟩
    have ht := ht.mono fun m hm => (hmark m).2 (.inl hm)
    rcases List.mem_append.1 hs with hs | hs
    · exact ⟨n, List.mem_cons_self, .back hn hp hs ht⟩
    · exact ⟨s, List.mem_cons_of_mem _ hs, ht⟩

end Pending

/-- The contributor that stands for the block at a node. -/
def ContributesAs (g : FlowGraph τ) (x : Local) (n : Node) (c : Contributor) : Prop :=
  ∃ b, g.block? n = some b ∧ b.exported? x = some c.value ∧ b.offset = c.predecessor

end FlowGraph

/-! ## Steps of the walk -/

namespace DefinitionWalk

section Step

variable {g : FlowGraph τ} {x : Local} {visited marked : BitSet} {n : Node} (rest : List Node)
  (found : Array Contributor)

theorem run_error {e : Fault} (h : BitSet.insert n visited = .error e marked) :
    run g x visited (n :: rest) found = .error e marked := by
  rw [run]
  split <;> simp_all

theorem run_known (h : BitSet.insert n visited = .ok false marked) :
    run g x visited (n :: rest) found = run g x marked rest found := by
  rw [run]
  split <;> simp_all

theorem run_missing (h : BitSet.insert n visited = .ok true marked) (hb : g.block? n = none) :
    run g x visited (n :: rest) found = run g x marked rest found := by
  rw [run]
  split <;> simp_all

theorem run_exporting (h : BitSet.insert n visited = .ok true marked) {b : Block τ}
    (hb : g.block? n = some b) {y : Local} (hy : b.exported? x = some y) :
    run g x visited (n :: rest) found = run g x marked rest (found.push ⟨y, b.offset⟩) := by
  rw [run]
  split <;> simp_all

theorem run_passing (h : BitSet.insert n visited = .ok true marked) {b : Block τ}
    (hb : g.block? n = some b) (hy : b.exported? x = none) :
    run g x visited (n :: rest) found = run g x marked (g.predecessors n ++ rest) found := by
  rw [run]
  split <;> simp_all

end Step

end DefinitionWalk

/-! ## The search -/

/-- **The search reports each block to be found once**, in some order. -/
theorem DefinitionWalk.run_found {g : FlowGraph τ} {x : Local} {visited visited' : BitSet}
    {stack : List Node} {found : Array Contributor} {cs : List Contributor}
    (h : run g x visited stack found = .ok cs visited') :
    ∃ ds new, cs = found.toList ++ new ∧ List.Forall₂ (g.ContributesAs x) ds new ∧ ds.Nodup ∧
      ∀ d, d ∈ ds ↔ ∃ s ∈ stack, g.Trail x (visited.test · = true) s d := by
  -- each case trades marks for stack entries, and the trails still to be followed stay the same
  fun_induction run g x visited stack found with
  | case1 visited found =>
      cases h
      exact ⟨[], [], by simp, .nil, by simp, by simp⟩
  | case2 => cases h
  | case3 found n rest marked hins ih =>
      obtain ⟨ds, new, hcs, hall, hnodup, hmem⟩ := ih h
      refine ⟨ds, new, hcs, hall, hnodup, fun d => ?_⟩
      rw [hmem, FlowGraph.trail_skip (.inl (BitSet.test_eq_true_of_insert_false hins))]
  | case4 visited found n rest marked hins _ hb ih =>
      obtain ⟨ds, new, hcs, hall, hnodup, hmem⟩ := ih h
      refine ⟨ds, new, hcs, hall, hnodup, fun d => ?_⟩
      rw [hmem, FlowGraph.trail_mark_missing hb (BitSet.test_insert hins)]
  | case5 visited found n rest marked hins _ b hb y hy ih =>
      obtain ⟨ds, new, hcs, hall, hnodup, hmem⟩ := ih h
      have hfree : ¬ visited.test n = true := by
        obtain ⟨_, hf, _⟩ := BitSet.insert_true hins
        simp [hf]
      refine ⟨n :: ds, ⟨y, b.offset⟩ :: new, by simp [hcs], .cons ⟨b, hb, hy, rfl⟩ hall, ?_,
        fun d => ?_⟩
      · refine List.nodup_cons.2 ⟨fun hn => ?_, hnodup⟩
        obtain ⟨s, _, ht⟩ := (hmem n).1 hn
        exact ht.not_marked_end ((BitSet.test_insert hins n).2 (.inr rfl))
      · rw [List.mem_cons, hmem,
          FlowGraph.trail_mark_exporting hfree ⟨b, y, hb, hy⟩ (BitSet.test_insert hins)]
  | case6 visited found n rest marked hins _ b hb hy ih =>
      obtain ⟨ds, new, hcs, hall, hnodup, hmem⟩ := ih h
      have hfree : ¬ visited.test n = true := by
        obtain ⟨_, hf, _⟩ := BitSet.insert_true hins
        simp [hf]
      refine ⟨ds, new, hcs, hall, hnodup, fun d => ?_⟩
      rw [hmem, FlowGraph.trail_mark_passing hfree ⟨b, hb, hy⟩ (BitSet.test_insert hins)]

/-- The search never leaves its marks, so it comes to an answer. -/
theorem DefinitionWalk.run_ok {g : FlowGraph τ} {visited : BitSet} {stack : List Node} (x : Local)
    (found : Array Contributor) (hstack : ∀ n ∈ stack, n < visited.capacity)
    (hpred : ∀ n, ∀ m ∈ g.predecessors n, m < visited.capacity) :
    ∃ cs visited', run g x visited stack found = .ok cs visited' := by
  fun_induction run g x visited stack found with
  | case1 visited found => exact ⟨_, _, rfl⟩
  | case2 visited found n rest e marked hins =>
      obtain ⟨_, _, hok, -⟩ := BitSet.insert_ok (hstack n List.mem_cons_self)
      rw [hins] at hok
      cases hok
  | case3 found n rest marked hins ih =>
      exact ih (fun m hm => hstack m (List.mem_cons_of_mem n hm)) hpred
  | case4 visited found n rest marked hins _ _ ih =>
      obtain ⟨_, -, rfl⟩ := BitSet.insert_true hins
      exact ih (fun m hm => hstack m (List.mem_cons_of_mem n hm)) hpred
  | case5 visited found n rest marked hins _ b _ y _ ih =>
      obtain ⟨_, -, rfl⟩ := BitSet.insert_true hins
      exact ih (fun m hm => hstack m (List.mem_cons_of_mem n hm)) hpred
  | case6 visited found n rest marked hins _ b _ _ ih =>
      obtain ⟨_, -, rfl⟩ := BitSet.insert_true hins
      refine ih (fun m hm => ?_) hpred
      rcases List.mem_append.1 hm with hm | hm
      · exact hpred n m hm
      · exact hstack m (List.mem_cons_of_mem n hm)

/-- **Every search has an answer**, whatever marks an earlier search has left. -/
theorem DefinitionWalk.reaching_ok {g : FlowGraph τ}
    (hpred : ∀ n, ∀ m ∈ g.predecessors n, m < g.blockCount) (n : Node) (x : Local)
    (w : DefinitionWalk) : ∃ cs w', reaching g n x w = .ok cs w' := by
  unfold reaching
  have hcapacity : g.blockCount ≤ (if w.visited.capacity < g.blockCount
      then BitSet.empty g.blockCount else w.visited.clear).capacity := by
    split
    · exact Nat.le_refl _
    · rename_i hge
      exact Nat.not_lt.1 hge
  have hlt : ∀ n, ∀ m ∈ g.predecessors n, m < (if w.visited.capacity < g.blockCount
      then BitSet.empty g.blockCount else w.visited.clear).capacity :=
    fun n m hm => Nat.lt_of_lt_of_le (hpred n m hm) hcapacity
  obtain ⟨cs, visited, hrun⟩ := run_ok x #[] (hlt n) hlt
  simp only [hrun]
  exact ⟨cs, _, rfl⟩

namespace FlowGraph

theorem exists_reachingDefinitions {g : FlowGraph τ}
    (hpred : ∀ n, ∀ m ∈ g.predecessors n, m < g.blockCount) (n : Node) (x : Local) :
    ∃ cs, g.reachingDefinitions n x = .ok cs := by
  obtain ⟨cs, w, hreach⟩ := DefinitionWalk.reaching_ok hpred n x (.ofGraph g)
  exact ⟨cs, by rw [reachingDefinitions, hreach]⟩

/-- Without marks, a trail from a predecessor is a supply. -/
theorem exists_trail_iff_supplies {g : FlowGraph τ} {x : Local} {n d : Node}
    (hexists : ∀ {n m : Node}, m ∈ g.predecessors n → ∃ b, g.block? m = some b) :
    (∃ s ∈ g.predecessors n, g.Trail x (fun _ => False) s d) ↔ g.Supplies (g.Exports x) d n := by
  constructor
  · rintro ⟨s, hs, ht⟩
    induction ht generalizing n with
    | here _ hx => exact .direct hs hx
    | back _ hp hpred _ ih => exact .through hs hp.not_exports (ih hpred)
  · intro hsup
    induction hsup with
    | direct hpred hx => exact ⟨_, hpred, .here id hx⟩
    | @through m n hpred hw _ ih =>
        obtain ⟨s, hs, ht⟩ := ih
        obtain ⟨b, hb⟩ := hexists hpred
        refine ⟨m, hpred, .back id ⟨b, hb, ?_⟩ hs ht⟩
        cases hy : b.exported? x with
        | none => rfl
        | some y => exact absurd ⟨b, y, hb, hy⟩ hw

end FlowGraph

/-- **The contributors of a search are the supplying blocks, each once**, whatever marks an earlier
search has left. -/
theorem DefinitionWalk.reaching_found {g : FlowGraph τ} {n : Node} {x : Local}
    {cs : List Contributor} {w w' : DefinitionWalk}
    (hexists : ∀ {n m : Node}, m ∈ g.predecessors n → ∃ b, g.block? m = some b)
    (h : reaching g n x w = .ok cs w') :
    ∃ ds, List.Forall₂ (g.ContributesAs x) ds cs ∧ ds.Nodup ∧
      ∀ d, d ∈ ds ↔ g.Supplies (g.Exports x) d n := by
  unfold reaching at h
  have hclean : ∀ i, (if w.visited.capacity < g.blockCount then BitSet.empty g.blockCount
      else w.visited.clear).test i = false := by
    intro i
    split
    · exact BitSet.test_empty _ i
    · exact BitSet.test_clear _ i
  generalize (if w.visited.capacity < g.blockCount then BitSet.empty g.blockCount
    else w.visited.clear) = marks at h hclean
  simp only at h
  split at h
  · rename_i found visited hrun
    cases h
    obtain ⟨ds, new, hcs, hall, hnodup, hmem⟩ := run_found hrun
    have hmarks : (marks.test · = true) = fun _ => False :=
      funext fun i => by simp [hclean i]
    rw [hmarks] at hmem
    refine ⟨ds, ?_, hnodup, fun d => (hmem d).trans (FlowGraph.exists_trail_iff_supplies hexists)⟩
    rw [show cs = new by simpa using hcs]
    exact hall
  · cases h

theorem FlowGraph.reachingDefinitions_found {g : FlowGraph τ} {n : Node} {x : Local}
    {cs : List Contributor}
    (hexists : ∀ {n m : Node}, m ∈ g.predecessors n → ∃ b, g.block? m = some b)
    (h : g.reachingDefinitions n x = .ok cs) :
    ∃ ds, List.Forall₂ (g.ContributesAs x) ds cs ∧ ds.Nodup ∧
      ∀ d, d ∈ ds ↔ g.Supplies (g.Exports x) d n := by
  unfold reachingDefinitions at h
  split at h
  · rename_i found w hreach
    cases h
    exact DefinitionWalk.reaching_found hexists hreach
  · cases h

/-! ## Two searches side by side -/

/-- What a search sees of a node: no block, a block to walk through, or a contributor. -/
def FlowGraph.contribution? (g : FlowGraph τ) (x : Local) (n : Node) :
    Option (Option Contributor) :=
  (g.block? n).map fun b => (b.exported? x).map (⟨·, b.offset⟩)

section Agree

variable {E : Fault → Fault → Prop} {κ : Contributor → Contributor} {g g' : FlowGraph τ}
  {x x' : Local}

/-- Two walks over the same edges find the same blocks if these contribute alike. -/
theorem DefinitionWalk.paired_run (hE : E .indexOutOfBounds .indexOutOfBounds)
    (hpred : ∀ n, g'.predecessors n = g.predecessors n)
    (hblock : ∀ n, g'.contribution? x' n = (g.contribution? x n).map (Option.map κ))
    (visited : BitSet) (stack : List Node) (found : Array Contributor) :
    Paired E Eq (fun cs cs' => cs' = cs.map κ) (run g x visited stack found)
      (run g' x' visited stack (found.map κ)) := by
  fun_induction run g x visited stack found with
  | case1 visited found =>
      rw [run]
      exact .ok (by simp) rfl
  | case2 visited found n rest e marked hins =>
      rw [run_error _ _ hins, BitSet.eq_of_insert_error hins]
      exact .error hE rfl
  | case3 found n rest marked hins ih =>
      rw [run_known _ _ hins]
      exact ih
  | case4 visited found n rest marked hins _ hb ih =>
      have hn := hblock n
      simp only [FlowGraph.contribution?, hb, Option.map_none, Option.map_eq_none_iff] at hn
      rw [run_missing _ _ hins hn]
      exact ih
  | case5 visited found n rest marked hins _ b hb y hy ih =>
      have hn := hblock n
      simp only [FlowGraph.contribution?, hb, hy, Option.map_some, Option.map_eq_some_iff] at hn
      obtain ⟨b', hb', y', hy', hc⟩ := hn
      rw [run_exporting _ _ hins hb' hy', hc]
      rw [Array.map_push] at ih
      exact ih
  | case6 visited found n rest marked hins _ b hb hy ih =>
      have hn := hblock n
      simp only [FlowGraph.contribution?, hb, hy, Option.map_some, Option.map_none,
        Option.map_eq_some_iff, Option.map_eq_none_iff] at hn
      obtain ⟨b', hb', hy'⟩ := hn
      rw [run_passing _ _ hins hb' hy', hpred]
      exact ih

/-- **Two searches over the same edges agree if the blocks contribute alike.** -/
theorem FlowGraph.agree_reachingDefinitions (hE : E .indexOutOfBounds .indexOutOfBounds)
    (hcount : g'.blockCount = g.blockCount) (hpred : ∀ n, g'.predecessors n = g.predecessors n)
    (hblock : ∀ n, g'.contribution? x' n = (g.contribution? x n).map (Option.map κ)) (n : Node) :
    Agree E (fun cs cs' => cs' = cs.map κ) (g.reachingDefinitions n x)
      (g'.reachingDefinitions n x') := by
  unfold FlowGraph.reachingDefinitions DefinitionWalk.reaching DefinitionWalk.ofGraph
  rw [hcount, hpred]
  have hpair := DefinitionWalk.paired_run hE hpred hblock (if (BitSet.empty g.blockCount).capacity <
    g.blockCount then BitSet.empty g.blockCount else (BitSet.empty g.blockCount).clear)
    (g.predecessors n) #[]
  rw [Array.map_empty] at hpair
  simp only
  generalize DefinitionWalk.run g x _ _ _ = found at hpair ⊢
  generalize DefinitionWalk.run g' x' _ _ _ = found' at hpair ⊢
  cases hpair with
  | ok hcs _ => exact .ok hcs
  | error he _ => exact .error he

end Agree

end SingleAssignment
