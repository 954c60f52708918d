import SingleAssignment.Proofs.Flow.AnyMarks
import SingleAssignment.Proofs.Flow.Reservation
import SingleAssignment.Proofs.Flow.Transfer

/-!
# Dangling blocks

A branch creates the block at its target before it is known whether an instruction stands there.
Only at the end of the scan it turns out which blocks stay empty.  They can be told by their
offsets, by the order of the entered blocks and by their contents, and all three agree.

* `FlowGraph.Renames` — some blocks were renamed, in any order and with any ids.
* `FlowGraph.Laid.offset_mem_iff` — a block was entered iff an instruction stands at its offset.
* `FlowGraph.Renames.predecessor_of_contributor` — a contributor comes from a block that has a
  successor.
* `build_identifies_dangling` — **dangling branches and blocks are identified exactly, and a
  dangling block contributes nothing.**
-/

namespace SingleAssignment

variable {τ : Type}

/-! ## Renamed blocks -/

/-- The block after an attempt to rename it, whether or not the ids were as many as needed. -/
def Block.afterRename (ids : List Local) (b : Block τ) : Block τ :=
  match Block.rename ids b with
  | .ok _ c => c
  | .error _ c => c

theorem Block.afterRename_of_ok {ids : List Local} {b c : Block τ} {ds : List (Local × Local)}
    (h : Block.rename ids b = .ok ds c) : b.afterRename ids = c := by
  simp [afterRename, h]

theorem Block.offset_afterRename (ids : List Local) (b : Block τ) :
    (b.afterRename ids).offset = b.offset := by
  unfold afterRename rename
  dsimp only
  cases hleft : (renameFrom {} ids b.instructions.toList).leftOver with
  | none => rfl
  | some left => cases left <;> rfl

namespace FlowGraph

/-- Blocks of the flow graph were renamed: any of them, any number of times, with any ids. -/
inductive Renames (g : FlowGraph τ) : FlowGraph τ → Prop where
  | refl : Renames g g
  | rename {g' : FlowGraph τ} {n : Node} {b : Block τ} (ids : List Local) :
      Renames g g' → g'.block? n = some b → Renames g (g'.setBlock n (b.afterRename ids))

namespace Renames

variable {g g' g'' : FlowGraph τ} {n : Node}

theorem trans (h : g.Renames g') (h' : g'.Renames g'') : g.Renames g'' := by
  induction h' with
  | refl => exact h
  | rename ids _ hb ih => exact ih.rename ids hb

/-- Renaming along a list of nodes renames blocks. -/
theorem of_renameAlong {reserved : Array (List Local)} {ns : List Node}
    {definitions definitions' : Array (List (Local × Local))}
    (h : renameAlong reserved ns definitions g = .ok definitions' g') : g.Renames g' := by
  induction ns generalizing definitions g with
  | nil =>
      obtain ⟨-, rfl⟩ := Outcome.of_run_pure h
      exact .refl
  | cons n ns ih =>
      obtain ⟨b, b', ds, hb, -, -, hr, h⟩ := renameAlong_cons h
      have hfirst := Renames.refl.rename (reserved.getD n []) hb
      rw [Block.afterRename_of_ok hr] at hfirst
      exact hfirst.trans (ih h)

theorem attained (h : g.Renames g') (hg : g.Attained) : g'.Attained := by
  induction h with
  | refl => exact hg
  | rename _ _ _ ih => exact ih.setBlock _ _

theorem predecessors (h : g.Renames g') (n : Node) : g'.predecessors n = g.predecessors n := by
  induction h with
  | refl => rfl
  | rename _ _ _ ih => exact ih

theorem offsetAt_eq (h : g.Renames g') (n : Node) : offsetAt g'.graph n = offsetAt g.graph n := by
  induction h with
  | refl => rfl
  | @rename g' m b ids _ hb ih =>
      rw [← ih]
      show ((g'.setBlock m _).block? n).map (·.offset) = (g'.block? n).map (·.offset)
      rw [block?_setBlock hb]
      split
      · rename_i he
        rw [← he, hb, Option.map_some, Option.map_some, b.offset_afterRename]
      · rfl

end Renames

/-! ## Contributors -/

theorem Supplies.exists_successor {g : FlowGraph τ} {writes : Node → Prop} {d n : Node}
    (h : g.Supplies writes d n) : ∃ m, d ∈ g.predecessors m := by
  induction h with
  | direct hpred _ => exact ⟨_, hpred⟩
  | through _ _ _ ih => exact ih

/-- **A contributor comes from a block that has a successor**, whatever marks the search has. -/
theorem Renames.predecessor_of_contributor {g g' : FlowGraph τ} (h : g.Renames g')
    (hg : g.Attained) (n : Node) (x : Local) (w : DefinitionWalk) :
    ∃ cs w', DefinitionWalk.reaching g' n x w = .ok cs w' ∧
      ∀ c ∈ cs, ∃ d m, d ∈ g.predecessors m ∧ offsetAt g.graph d = some c.predecessor := by
  have hg' := h.attained hg
  obtain ⟨cs, w', hcs⟩ := DefinitionWalk.reaching_ok hg'.predecessor_lt n x w
  obtain ⟨ds, hall, -, hds⟩ := DefinitionWalk.reaching_found hg'.exists_predecessor hcs
  refine ⟨cs, w', hcs, fun c hc => ?_⟩
  obtain ⟨k, hk, rfl⟩ := List.mem_iff_getElem.1 hc
  have hk' : k < ds.length := hall.length_eq ▸ hk
  obtain ⟨b, hb, -, hoffset⟩ := hall.get hk' hk
  obtain ⟨m, hm⟩ := ((hds _).1 (List.getElem_mem hk')).exists_successor
  rw [h.predecessors] at hm
  exact ⟨_, m, hm, (h.offsetAt_eq _).symm.trans (Option.map_eq_some_iff.2 ⟨b, hb, hoffset⟩)⟩

/-! ## The blocks that were not entered -/

namespace Laid

variable {labels : Std.TreeSet Offset} {is : List (Instruction τ)} {g : FlowGraph τ} {n : Node}
  {b : Block τ}

theorem isDangling_iff (h : g.Laid labels is) :
    g.isDangling n = true ↔ n < g.blockCount ∧ n ∉ g.order.toList := by
  rw [isDangling, Bool.and_eq_true, decide_eq_true_iff, ← h.reached, Bool.not_eq_true',
    Bool.not_eq_true]

/-- A block was entered iff it holds instructions. -/
theorem isEmpty_iff (h : g.Laid labels is) (hb : g.block? n = some b) :
    b.isEmpty = true ↔ n ∉ g.order.toList := by
  rw [Block.isEmpty, Array.isEmpty_iff, h.order]
  constructor
  · intro hempty hn
    obtain ⟨⟨m, c⟩, hq, rfl⟩ := List.mem_map.1 hn
    obtain rfl : c = b := Option.some.inj ((h.layout.stored (m, c) hq).symm.trans hb)
    exact h.filled (m, c) hq hempty
  · intro hn
    exact h.layout.idle n b hb hn

/-- **A block was entered iff an instruction stands at its offset.** -/
theorem offset_mem_iff (h : g.Laid labels is)
    (hlabels : ∀ i ∈ is, ∀ c t, i.branch? = some (c, t) → t ∈ labels) (hb : g.block? n = some b) :
    b.offset ∈ is.map (·.offset) ↔ n ∈ g.order.toList := by
  constructor
  · intro hmem
    obtain ⟨j, hj, hoffset⟩ := List.mem_map.1 hmem
    have hnode : g.nodeAt? j.offset = some n :=
      (h.layout.index _ _).2 (Option.map_eq_some_iff.2 ⟨b, hb, hoffset.symm⟩)
    obtain ⟨c, hc, -⟩ := h.head_of_nodeAt hlabels hj hnode
    rw [h.order]
    exact List.mem_map.2 ⟨_, hc, rfl⟩
  · intro hn
    obtain ⟨c, start, hp⟩ := h.mem_order_iff.1 hn
    obtain rfl : c = b := Option.some.inj ((h.layout.stored (n, c) hp.mem).symm.trans hb)
    obtain ⟨i, hi, -, hoffset⟩ := h.exists_head hp
    exact List.mem_map.2 ⟨i, List.mem_of_getElem? hi, hoffset⟩

/-- **The branches noted are those without an instruction at their target.** -/
theorem dangling_eq (h : g.Laid labels is)
    (hlabels : ∀ i ∈ is, ∀ c t, i.branch? = some (c, t) → t ∈ labels) :
    g.dangling.toList =
      (branchTargets is).filter fun bt => decide (bt.2 ∉ is.map (·.offset)) := by
  rw [h.dangling]
  refine List.filter_congr fun bt hbt => ?_
  obtain ⟨i, hi, hbt⟩ := List.mem_filterMap.1 hbt
  obtain ⟨⟨c, t⟩, hb, rfl⟩ := Option.map_eq_some_iff.1 hbt
  rw [decide_eq_decide, h.mem_offsets_of_label (hlabels i hi c t hb)]

theorem not_mem_predecessors (h : g.Laid labels is) (hn : n ∉ g.order.toList) (m : Node) :
    n ∉ g.predecessors m := by
  rw [h.predecessors_eq]
  exact fun hmem => hn (List.mem_of_mem_filter hmem)

end Laid

end FlowGraph

/-- **Dangling branches and blocks are identified exactly.**  Instructions with distinct offsets
whose branches lead to labels have a flow graph.  It notes, in program order, the branches to where
no instruction stands.  A block is dangling iff no instruction stands at its offset, iff it was not
entered, iff it is empty.  Such a block precedes no block, and however the blocks are renamed, no
search for reaching definitions reports it. -/
theorem build_identifies_dangling {labels : Std.TreeSet Offset} {is : List (Instruction τ)}
    (hne : is ≠ []) (hdistinct : (is.map (·.offset)).Nodup)
    (hlabels : ∀ i ∈ is, ∀ c t, i.branch? = some (c, t) → t ∈ labels) :
    ∃ g, FlowGraph.build labels is = .ok g ∧
      g.dangling.toList =
        (FlowGraph.branchTargets is).filter (fun bt => decide (bt.2 ∉ is.map (·.offset))) ∧
      (∀ n, (g.isDangling n = true ↔
          ∃ b, g.block? n = some b ∧ b.offset ∉ is.map (·.offset)) ∧
        (g.isDangling n = true ↔ n < g.blockCount ∧ n ∉ g.order.toList) ∧
        (g.isDangling n = true ↔ ∃ b, g.block? n = some b ∧ b.isEmpty = true)) ∧
      ∀ n, g.isDangling n = true → (∀ m, n ∉ g.predecessors m) ∧
        ∀ g', g.Renames g' → (∀ m, n ∉ g'.predecessors m) ∧
          ∀ m x w, ∃ cs w', DefinitionWalk.reaching g' m x w = .ok cs w' ∧
            ∀ c ∈ cs, ∀ b, g'.block? n = some b → b.offset ≠ c.predecessor := by
  obtain ⟨g, hg, h⟩ := FlowGraph.exists_build labels hne hdistinct
  refine ⟨g, hg, h.dangling_eq hlabels, fun n => ⟨?_, h.isDangling_iff, ?_⟩, fun n hn => ?_⟩
  · rw [h.isDangling_iff]
    constructor
    · rintro ⟨hlt, hn⟩
      obtain ⟨b, hb⟩ := node?_of_lt hlt
      exact ⟨b, hb, (h.offset_mem_iff hlabels hb).not.2 hn⟩
    · rintro ⟨b, hb, hoffset⟩
      exact ⟨lt_of_node? hb, (h.offset_mem_iff hlabels hb).not.1 hoffset⟩
  · rw [h.isDangling_iff]
    constructor
    · rintro ⟨hlt, hn⟩
      obtain ⟨b, hb⟩ := node?_of_lt hlt
      exact ⟨b, hb, (h.isEmpty_iff hb).2 hn⟩
    · rintro ⟨b, hb, hempty⟩
      exact ⟨lt_of_node? hb, (h.isEmpty_iff hb).1 hempty⟩
  · have hidle := h.not_mem_predecessors (h.isDangling_iff.1 hn).2
    refine ⟨hidle, fun g' hr => ⟨fun m => by rw [hr.predecessors]; exact hidle m, fun m x w => ?_⟩⟩
    obtain ⟨cs, w', hcs, hfrom⟩ := hr.predecessor_of_contributor (.built hg) m x w
    refine ⟨cs, w', hcs, fun c hc b hb hoffset => ?_⟩
    obtain ⟨d, k, hd, hat⟩ := hfrom c hc
    -- the block at `n` has the offset of the contributor, so it is the block at `d`
    have hown : offsetAt g.graph n = some c.predecessor :=
      (hr.offsetAt_eq n).symm.trans (Option.map_eq_some_iff.2 ⟨b, hb, hoffset⟩)
    obtain rfl := h.layout.node_unique hown hat
    exact hidle k hd

/-- A branch forward to an instruction, and two branches to one offset where nothing is. -/
def strayTwice : List (Instruction Unit) :=
  [⟨0, (), [], .branch true 2⟩, ⟨1, (), [], .branch true 9⟩, ⟨2, (), [], .assign ⟨1⟩⟩,
    ⟨3, (), [⟨1⟩], .branch false 9⟩]

/-- Both branches share the block with number 3, which stays out of every search after renaming. -/
theorem strayTwice_dangling :
    strayTwice ≠ [] ∧ (strayTwice.map (·.offset)).Nodup ∧
    (∀ i ∈ strayTwice, ∀ c t, i.branch? = some (c, t) →
      t ∈ (Program.ofList strayTwice).labels) ∧
    ∃ g, FlowGraph.build (Program.ofList strayTwice).labels strayTwice = .ok g ∧
      g.dangling.toList = [(1, 9), (3, 9)] ∧ g.isDangling 3 = true ∧
      (∀ m, 3 ∉ g.predecessors m) ∧
      ∃ definitions g', FlowGraph.renameAlong #[[], [⟨5⟩], [], []] [0, 2, 1, 3]
          (Array.replicate 4 []) g = .ok definitions g' ∧
        ∀ m x w, ∃ cs w', DefinitionWalk.reaching g' m x w = .ok cs w' ∧
          ∀ c ∈ cs, ∀ b, g'.block? 3 = some b → b.offset ≠ c.predecessor := by
  have hne : strayTwice ≠ [] := by decide
  have hdistinct : (strayTwice.map (·.offset)).Nodup := by decide
  have hlabels : ∀ i ∈ strayTwice, ∀ c t, i.branch? = some (c, t) →
      t ∈ (Program.ofList strayTwice).labels :=
    fun i hi c _ hb => Program.mem_labels.2 ⟨i, hi, c, hb⟩
  obtain ⟨g, hg, hbranches, hblocks, hidle⟩ := build_identifies_dangling hne hdistinct hlabels
  have hrun : (FlowGraph.build (Program.ofList strayTwice).labels strayTwice).toOption.any
      (fun g => (g.block? 3).any (·.isEmpty) &&
        (EStateM.run' (FlowGraph.renameAlong #[[], [⟨5⟩], [], []] [0, 2, 1, 3]
          (Array.replicate 4 [])) g).isSome) = true := by decide +kernel
  obtain ⟨hempty, hrenamed⟩ : (g.block? 3).any (·.isEmpty) = true ∧
      (EStateM.run' (FlowGraph.renameAlong #[[], [⟨5⟩], [], []] [0, 2, 1, 3]
        (Array.replicate 4 [])) g).isSome = true := by
    simpa [hg, Except.toOption] using hrun
  have hdangling : g.isDangling 3 = true := (hblocks 3).2.2.2 ((Option.any_eq_true _ _).1 hempty)
  refine ⟨hne, hdistinct, hlabels, g, hg, ?_, hdangling, (hidle 3 hdangling).1, ?_⟩
  · rw [hbranches]
    decide
  · cases hout : FlowGraph.renameAlong #[[], [⟨5⟩], [], []] [0, 2, 1, 3]
        (Array.replicate 4 []) g with
    | error e g' =>
        delta EStateM.run' EStateM.run at hrenamed
        rw [hout] at hrenamed
        cases hrenamed
    | ok definitions g' =>
        exact ⟨definitions, g', rfl, ((hidle 3 hdangling).2 g' (.of_renameAlong hout)).2⟩

end SingleAssignment
