import SingleAssignment.Proofs.Flow.Reservation

/-!
# The order in which blocks are renamed

Once every block has its ids, the blocks are independent of each other: renaming one block reads and
writes that block only.  So all lists that name the same nodes lead to the same flow graph, and
reserving first is the same as reserving and renaming block by block.

A block that was never entered is renamed with no ids.  It is as it was created, so renaming leaves
it as it is; `FlowGraph.build_bare` says that building does not touch the border tables.

* `FlowGraph.renameAlong_unique` — the flow graph and the definitions do not depend on the order.
* `FlowGraph.renameEach_eq` — **reserving first is reserving block by block.**
* `FlowGraph.Laid.served` — the ids reserved for a program are those that its blocks need.
* `FlowGraph.renaming_unordered` — **one result for all orders of the blocks of a program.**
-/

namespace SingleAssignment

variable {τ : Type}

/-! ## Blocks without border tables -/

/-- Nothing is known yet of what crosses the borders of the block. -/
def Block.Bare (b : Block τ) : Prop := b.imported = ∅ ∧ b.exported = ∅

/-- An answer, if there is one, has a property. -/
def Ensures {ε α : Type} (P : α → Prop) (x : Except ε α) : Prop := ∀ ⦃a⦄, x = .ok a → P a

theorem Ensures.bind {ε α β : Type} {P : α → Prop} {Q : β → Prop} {x : Except ε α}
    {f : α → Except ε β} (hx : Ensures P x) (hf : ∀ a, P a → Ensures Q (f a)) :
    Ensures Q (x >>= f) := by
  intro b hb
  cases x with
  | error e => cases hb
  | ok a => exact hf a (hx rfl) hb

theorem Ensures.any {ε α : Type} (x : Except ε α) : Ensures (fun _ => True) x := fun _ _ => trivial

theorem Ensures.foldlM {ε α γ : Type} {P : α → Prop} {f : α → γ → Except ε α}
    (hf : ∀ a c, P a → Ensures P (f a c)) (cs : List γ) {a : α} (ha : P a) :
    Ensures P (cs.foldlM f a) := by
  induction cs generalizing a with
  | nil =>
      intro b hb
      cases hb
      exact ha
  | cons c cs ih =>
      rw [List.foldlM_cons]
      exact (hf a c ha).bind fun _ hb => ih hb

/-- All blocks of a graph are bare. -/
def AllBare (g : OrderedGraph (Block τ) EdgeKind) : Prop :=
  ∀ (n : Node) (b : Block τ), g.node? n = some b → b.Bare

theorem OrderedGraph.node?_of_addEdge {ν ε : Type} {source target : Node} {label : ε} {isNew : Bool}
    {g g' : OrderedGraph ν ε} (h : addEdge source target label g = .ok isNew g') (n : Node) :
    g'.node? n = g.node? n := by
  unfold addEdge at h
  split at h
  · cases h
  · split at h
    · cases h
    · split at h
      · cases h
        rfl
      · cases h
        rfl

namespace Scan

variable {s : Scan τ}

theorem bare_blockAt (h : AllBare s.graph) (o : Offset) : AllBare (s.blockAt o).2.graph := by
  unfold blockAt
  split
  · exact h
  · intro n b hb
    have hb : (s.graph.addNode (Block.empty o)).2.node? n = some b := hb
    rw [OrderedGraph.node?_addNode] at hb
    split at hb
    · cases hb
      exact ⟨rfl, rfl⟩
    · exact h n b hb

theorem bare_link (h : AllBare s.graph) (n : Node) (kind : EdgeKind) :
    Ensures (AllBare ·.graph) (s.link n kind) := by
  intro s' hs'
  unfold link at hs'
  split at hs'
  · rename_i g hg
    cases hs'
    intro m b hb
    exact h m b ((OrderedGraph.node?_of_addEdge hg m).symm.trans hb)
  · cases hs'

theorem bare_enter (h : AllBare s.graph) (o : Offset) :
    Ensures (AllBare ·.graph) (s.enter o) := by
  have hat := bare_blockAt h o
  unfold enter
  simp only
  cases (s.blockAt o).2.onward? with
  | none =>
      intro s' hs'
      cases hs'
      exact hat
  | some kind =>
      refine (bare_link hat _ kind).bind fun t ht s' hs' => ?_
      cases hs'
      exact ht

theorem bare_follow (h : AllBare s.graph) (i : Instruction τ) :
    Ensures (AllBare ·.graph) (s.follow i) := by
  unfold follow
  cases i.branch? with
  | none =>
      intro s' hs'
      cases hs'
      exact h
  | some b =>
      refine (bare_link (bare_blockAt h b.2) _ _).bind fun t ht s' hs' => ?_
      cases hs'
      exact ht

theorem bare_place (h : AllBare s.graph) (i : Instruction τ) :
    Ensures (AllBare ·.graph) (s.place i) := by
  intro s' hs'
  unfold place at hs'
  split at hs'
  · cases hs'
    intro n b hb
    have hb : (s.graph.modify s.current (·.push i)).node? n = some b := hb
    rw [OrderedGraph.node?_modify] at hb
    split at hb
    · obtain ⟨b', hb', rfl⟩ := Option.map_eq_some_iff.1 hb
      exact h n b' hb'
    · exact h n b hb
  · cases hs'

theorem bare_note (h : AllBare s.graph) (o : Offset) : Ensures (AllBare ·.graph) (s.note o) := by
  intro s' hs'
  unfold note at hs'
  split at hs'
  · cases hs'
  · cases hs'
    exact h

theorem bare_first (h : AllBare s.graph) (i : Instruction τ) :
    Ensures (AllBare ·.graph) (s.first i) :=
  (bare_note h i.offset).bind fun _ h₁ => (bare_follow h₁ i).bind fun _ h₂ => bare_place h₂ i

/-- One instruction leaves all border tables empty. -/
theorem bare_step (labels : Std.TreeSet Offset) (h : AllBare s.graph) (i : Instruction τ) :
    Ensures (AllBare ·.graph) (s.step labels i) := by
  refine (bare_note h i.offset).bind fun t ht => ?_
  have hrest : ∀ t : Scan τ, AllBare t.graph →
      Ensures (AllBare ·.graph) (t.follow i >>= fun u => u.place i) :=
    fun t ht => (bare_follow ht i).bind fun _ h₂ => bare_place h₂ i
  simp only
  split
  · exact (bare_enter ht i.offset).bind hrest
  · exact hrest t ht

end Scan

/-- Building a flow graph leaves all border tables empty. -/
theorem FlowGraph.build_bare {labels : Std.TreeSet Offset} {is : List (Instruction τ)}
    {g : FlowGraph τ} (h : build labels is = .ok g) : AllBare g.graph := by
  cases is with
  | nil => cases h
  | cons i is =>
      have hstart : AllBare (Scan.start i.offset : Scan τ).graph := by
        intro n b hb
        have hb : (OrderedGraph.empty.addNode (Block.empty i.offset)).2.node? n = some b := hb
        rw [OrderedGraph.node?_addNode] at hb
        split at hb
        · cases hb
          exact ⟨rfl, rfl⟩
        · cases hb
      refine (Scan.bare_first hstart i).bind (Q := fun g => AllBare g.graph) (fun s hs => ?_) h
      refine (Ensures.foldlM (fun s i hs => Scan.bare_step labels hs i) is hs).bind fun t ht => ?_
      refine (Ensures.any _).bind fun reached _ => (Ensures.any _).bind fun dangling _ g hg => ?_
      cases hg
      exact ht

/-- A bare block without instructions stays as it is. -/
theorem Block.rename_idle {b : Block τ} (h : b.Bare) (hempty : b.instructions = #[]) :
    Block.rename [] b = .ok [] b := by
  obtain ⟨offset, instructions, imported, exported⟩ := b
  obtain ⟨rfl, rfl⟩ := h
  subst hempty
  rfl

namespace FlowGraph

/-! ## Any order of the blocks -/

/-- The flow graph with all blocks replaced. -/
def withBlocks (g : FlowGraph τ) (nodes : Array (Block τ)) : FlowGraph τ :=
  { g with graph := { g.graph with nodes } }

theorem withBlocks_eq {g : FlowGraph τ} {nodes nodes' : Array (Block τ)}
    (h : ∀ n, (g.withBlocks nodes).block? n = (g.withBlocks nodes').block? n) :
    g.withBlocks nodes = g.withBlocks nodes' :=
  congrArg g.withBlocks (Array.ext_getElem? h)

/-- Renaming replaces blocks and fills in definitions, and touches nothing else. -/
theorem renameAlong_frame {reserved : Array (List Local)} {ns : List Node}
    {definitions definitions' : Array (List (Local × Local))} {g g' : FlowGraph τ}
    (h : renameAlong reserved ns definitions g = .ok definitions' g') :
    definitions'.size = definitions.size ∧ ∃ nodes, g' = g.withBlocks nodes := by
  induction ns generalizing definitions g with
  | nil =>
      obtain ⟨rfl, rfl⟩ := Outcome.of_run_pure h
      exact ⟨rfl, g.graph.nodes, rfl⟩
  | cons n ns ih =>
      obtain ⟨b, b', ds, -, -, -, -, h⟩ := renameAlong_cons h
      obtain ⟨hsize, nodes, hg⟩ := ih h
      rw [Array.size_setIfInBounds] at hsize
      exact ⟨hsize, nodes, hg⟩

section Unique

variable {reserved : Array (List Local)} {ns ns' : List Node}
  {definitions d d' : Array (List (Local × Local))} {g k k' : FlowGraph τ}

/-- What renaming leaves at a node does not depend on the order, nor on whether idle nodes are
listed. -/
theorem RenamedAlong.at_node (h : RenamedAlong reserved ns definitions d g k)
    (h' : RenamedAlong reserved ns' definitions d' g k') (hsub : ∀ n ∈ ns', n ∈ ns)
    (hidle : ∀ n ∈ ns, n ∉ ns' → ∃ b, g.block? n = some b ∧
      Block.rename (reserved.getD n []) b = .ok (definitions.getD n []) b) (n : Node) :
    d.getD n [] = d'.getD n [] ∧ k.block? n = k'.block? n := by
  by_cases hn' : n ∈ ns'
  · obtain ⟨b, c, hb, hc, hr⟩ := h.listed n (hsub n hn')
    obtain ⟨b', c', hb', hc', hr'⟩ := h'.listed n hn'
    obtain rfl : b = b' := Option.some.inj (hb.symm.trans hb')
    have heq := hr.symm.trans hr'
    injection heq with hd hblock
    exact ⟨hd, by rw [hc, hc', hblock]⟩
  · obtain ⟨hblock', hd'⟩ := h'.unlisted n hn'
    by_cases hn : n ∈ ns
    · obtain ⟨b, c, hb, hc, hr⟩ := h.listed n hn
      obtain ⟨b', hb', hr'⟩ := hidle n hn hn'
      obtain rfl : b = b' := Option.some.inj (hb.symm.trans hb')
      have heq := hr.symm.trans hr'
      injection heq with hd hblock
      exact ⟨by rw [hd, hd'], by rw [hc, hblock', hblock, hb]⟩
    · obtain ⟨hblock, hd⟩ := h.unlisted n hn
      exact ⟨by rw [hd, hd'], by rw [hblock, hblock']⟩

/-- **The order of the blocks does not matter**, and idle blocks may be left out. -/
theorem renameAlong_unique (h : renameAlong reserved ns definitions g = .ok d k)
    (h' : renameAlong reserved ns' definitions g = .ok d' k') (hnd : ns.Nodup) (hnd' : ns'.Nodup)
    (hsub : ∀ n ∈ ns', n ∈ ns)
    (hidle : ∀ n ∈ ns, n ∉ ns' → ∃ b, g.block? n = some b ∧
      Block.rename (reserved.getD n []) b = .ok (definitions.getD n []) b) : d = d' ∧ k = k' := by
  have hsame := (renameAlong_ok h hnd).at_node (renameAlong_ok h' hnd') hsub hidle
  obtain ⟨hsize, nodes, rfl⟩ := renameAlong_frame h
  obtain ⟨hsize', nodes', rfl⟩ := renameAlong_frame h'
  refine ⟨Array.ext (hsize.trans hsize'.symm) fun n hn hn' => ?_,
    withBlocks_eq fun n => (hsame n).2⟩
  have hd := (hsame n).1
  rw [Array.getD_eq_getD_getElem?, Array.getD_eq_getD_getElem?, Array.getElem?_eq_getElem hn,
    Array.getElem?_eq_getElem hn'] at hd
  exact hd

end Unique

/-! ## Reserving block by block -/

/-- Reservation looks at the listed blocks only. -/
theorem reserve_congr {g g' : FlowGraph τ} {ns : List Node}
    (h : ∀ n ∈ ns, g'.block? n = g.block? n) (reserved : Array (List Local)) :
    g'.reserve ns reserved = g.reserve ns reserved := by
  induction ns generalizing reserved with
  | nil => rfl
  | cons n ns ih =>
      have hrest := ih fun m hm => h m (List.mem_cons_of_mem n hm)
      unfold reserve blockOf
      rw [h n List.mem_cons_self]
      simp only [hrest]

theorem renameEach_cons {g k : FlowGraph τ} {n : Node} {ns : List Node} {b c : Block τ}
    {s t s' : Supply} {ids : List Local} {ds : List (Local × Local)}
    {rest : List (List (Local × Local))} (hb : g.block? n = some b)
    (hids : Supply.reserve b.assignmentCount s = .ok ids t) (hc : Block.rename ids b = .ok ds c)
    (hrest : renameEach ns (t, g.setBlock n c) = .ok rest (s', k)) :
    renameEach (n :: ns) (s, g) = .ok (ds :: rest) (s', k) := by
  rw [renameEach, Outcome.run_bind_ok (x := get) (s := (s, g)) rfl]
  dsimp only
  rw [Outcome.run_bind_ok (entryAt_eq_ok hb (s, g))]
  simp only [hids, hc]
  rw [Outcome.run_bind_ok (x := set (t, g.setBlock n c)) (s := (s, g)) rfl,
    Outcome.run_bind_ok hrest]
  rfl

/-- **Reserving first is reserving block by block.** -/
theorem renameEach_eq {reserved reserved' : Array (List Local)} {ns : List Node}
    {definitions d : Array (List (Local × Local))} {g k : FlowGraph τ} {s s' : Supply}
    (hnd : ns.Nodup) (hreserve : g.reserve ns reserved s = .ok reserved' s')
    (hrename : renameAlong reserved' ns definitions g = .ok d k) :
    renameEach ns (s, g) = .ok (ns.map (d.getD · [])) (s', k) := by
  induction ns generalizing reserved definitions g s with
  | nil =>
      obtain ⟨rfl, rfl⟩ := Outcome.of_run_pure hreserve
      obtain ⟨rfl, rfl⟩ := Outcome.of_run_pure hrename
      rfl
  | cons n ns ih =>
      obtain ⟨hnotin, hnd⟩ := List.nodup_cons.1 hnd
      obtain ⟨b, ids, t, hb, hn, hids, htail⟩ := reserve_cons hreserve
      obtain ⟨b', c, ds, hb', -, hn', hc, hrename⟩ := renameAlong_cons hrename
      obtain rfl : b = b' := Option.some.inj (hb.symm.trans hb')
      -- what the rest of the list reserves and renames leaves this node alone
      have hown : reserved'.getD n [] = ids := by
        rw [(reserve_ok htail hnd).2 n hnotin, getD_setIfInBounds _ _ _ _ hn, if_pos rfl]
      have hdefs : d.getD n [] = ds := by
        rw [((renameAlong_ok hrename hnd).unlisted n hnotin).2, getD_setIfInBounds _ _ _ _ hn',
          if_pos rfl]
      rw [hown] at hc
      have hother : ∀ m ∈ ns, (g.setBlock n c).block? m = g.block? m := by
        intro m hm
        rw [block?_setBlock hb, if_neg fun he : n = m => hnotin (he ▸ hm)]
      rw [← reserve_congr hother] at htail
      have hrest := ih hnd htail hrename
      rw [renameEach_cons hb hids hc hrest, List.map_cons, hdefs]

end FlowGraph

/-! ## The ids of a program -/

/-- The number of assignments of a program. -/
def Program.assignmentCount (p : Program τ) : Nat :=
  p.instructions.countP Instruction.isAssignment

namespace FlowGraph

theorem destinations_blocksInOrder {g : FlowGraph τ} {f : Node → List Local}
    (h : ∀ n ∈ g.order.toList, ∃ b, g.block? n = some b ∧
      destinations b.instructions.toList = f n) :
    destinations (allInstructions g.blocksInOrder) = g.order.toList.flatMap f := by
  unfold blocksInOrder
  generalize g.order.toList = ns at h
  induction ns with
  | nil => rfl
  | cons n ns ih =>
      obtain ⟨b, hb, hf⟩ := h n List.mem_cons_self
      have hrest := ih fun m hm => h m (List.mem_cons_of_mem n hm)
      rw [List.filterMap_cons_some (by rw [hb]; rfl), allInstructions, List.flatMap_cons,
        destinations_append, hf, List.flatMap_cons, ← hrest]
      rfl

section Laid

variable {p : Program τ} {g : FlowGraph τ} (h : g.Laid p.labels p.instructions.toList)
include h

/-- The blocks of a flow graph have the assignments of its program. -/
theorem Laid.length_destinations :
    (g.order.toList.flatMap g.destinationsAt).length = p.assignmentCount := by
  have hall : allInstructions g.blocksInOrder = p.instructions.toList := h.contents
  rw [← destinations_blocksInOrder, hall, length_destinations_eq_countP, Array.countP_toList,
    Program.assignmentCount]
  intro n hn
  obtain ⟨b, hb⟩ := h.exists_block hn
  exact ⟨b, hb, (destinationsAt_eq hb).symm⟩

/-- A program with distinct offsets has at most as many instructions as there are offsets. -/
theorem Laid.size_le : p.instructions.size ≤ UInt32.size := by
  have hnodup : ((p.instructions.toList.map (·.offset)).map UInt32.toNat).Nodup :=
    h.distinct.map fun _ _ => UInt32.toNat_inj.1
  have hsub : ((p.instructions.toList.map (·.offset)).map UInt32.toNat).Subperm
      (List.range UInt32.size) := hnodup.subperm fun n hn => by
    obtain ⟨o, -, rfl⟩ := List.mem_map.1 hn
    exact List.mem_range.2 o.toNat_lt_size
  simpa using hsub.length_le

/-- The ids of all blocks can be reserved, as far as blocks, tables and room are concerned. -/
theorem Laid.reservable : g.Reservable g.blockCount g.order.toList := by
  refine ⟨fun n hn => h.exists_block hn, fun n hn => h.lt_blockCount hn, ?_⟩
  calc (g.order.toList.flatMap g.destinationsAt).length
    _ = p.assignmentCount := h.length_destinations
    _ ≤ p.instructions.size := Array.countP_le_size
    _ ≤ UInt32.size := h.size_le
    _ ≤ Supply.largestRequest := by decide

/-- Locals reserved in one portion can be reserved block by block. -/
theorem Laid.exists_reserve {s s' : Supply} {ids : List Local}
    (hids : Supply.reserve p.assignmentCount s = .ok ids s') :
    ∃ reserved,
      g.reserve g.order.toList (Array.replicate g.blockCount []) s = .ok reserved s' := by
  obtain ⟨-, hmint⟩ := Supply.reserve_ok hids
  rw [← h.length_destinations] at hmint
  refine FlowGraph.exists_reserve _ ?_ hmint
  rw [Array.size_replicate]
  exact h.reservable

/-- Each block, entered or not, has as many locals as it needs, and the tables have a place for
it. -/
theorem Laid.served {s s' : Supply} {reserved : Array (List Local)}
    (hok : g.reserve g.order.toList (Array.replicate g.blockCount []) s = .ok reserved s')
    {n : Node} (hn : n < g.blockCount) : g.Served reserved g.blockCount n := by
  obtain ⟨b, hb⟩ := node?_of_lt hn
  refine ⟨by rw [size_reserved hok, Array.size_replicate]; exact hn, hn, b, hb, ?_⟩
  by_cases hmem : n ∈ g.order.toList
  · rw [length_reserved hok h.nodup_order hmem, destinationsAt_eq hb]
  · -- a block that was never entered has nothing to rename
    rw [(reserve_ok hok h.nodup_order).2 n hmem, h.layout.idle n b hb (h.order ▸ hmem)]
    simp [destinations, hn]

end Laid

/-! ## Any order of all blocks -/

theorem getD_replicate_nil {α : Type} (size n : Nat) :
    (Array.replicate size ([] : List α)).getD n [] = [] := by
  rw [Array.getD_eq_getD_getElem?, Array.getElem?_replicate]
  split <;> rfl

section Renaming

variable {p : Program τ} {g : FlowGraph τ} {s s' : Supply} {reserved : Array (List Local)}

/-- A block that was never entered is renamed with no ids, which changes nothing. -/
theorem rename_unentered (hg : ofProgram p = .ok g) {size : Nat} {n : Node}
    (hserved : g.Served reserved size n) (hout : n ∉ g.order.toList) :
    ∃ b, g.block? n = some b ∧ Block.rename (reserved.getD n []) b = .ok [] b := by
  have hlaid := build_laid hg
  obtain ⟨-, -, b, hb, hids⟩ := hserved
  have hempty : b.instructions = #[] := hlaid.layout.idle n b hb (hlaid.order ▸ hout)
  rw [hempty] at hids
  refine ⟨b, hb, ?_⟩
  rw [List.eq_nil_of_length_eq_zero hids, Block.rename_idle (build_bare hg n b hb) hempty]

/-- All lists of nodes without repetition that cover the entered blocks lead to one result. -/
theorem exists_renaming (hg : ofProgram p = .ok g)
    (hok : g.reserve g.order.toList (Array.replicate g.blockCount []) s = .ok reserved s') :
    ∃ definitions g', ∀ ns : List Node, ns.Nodup → (∀ n ∈ ns, n < g.blockCount) →
      (∀ n ∈ g.order.toList, n ∈ ns) →
      renameAlong reserved ns (Array.replicate g.blockCount []) g = .ok definitions g' := by
  have hserved : ∀ n < g.blockCount, g.Served reserved
      (Array.replicate g.blockCount ([] : List (Local × Local))).size n := fun n hn => by
    rw [Array.size_replicate]
    exact (build_laid hg).served hok hn
  obtain ⟨definitions, g', hall⟩ := exists_renameAlong (Array.replicate g.blockCount [])
    List.nodup_range fun n hn => hserved n (List.mem_range.1 hn)
  refine ⟨definitions, g', fun ns hnd hlt hcover => ?_⟩
  obtain ⟨d, k, hns⟩ := exists_renameAlong (Array.replicate g.blockCount []) hnd
    fun n hn => hserved n (hlt n hn)
  -- the nodes that the list leaves out were never entered
  obtain ⟨rfl, rfl⟩ := renameAlong_unique hall hns List.nodup_range hnd
    (fun n hn => List.mem_range.2 (hlt n hn)) fun n hn hout => by
      rw [getD_replicate_nil]
      exact rename_unentered hg (hserved n (List.mem_range.1 hn)) fun hmem => hout (hcover n hmem)
  exact hns

/-- **One result for all orders of the blocks.**  Ids were reserved in program order: then renaming
all blocks in any order ends with one flow graph and the same definitions for each node, and so does
renaming block by block. -/
theorem renaming_unordered (hg : ofProgram p = .ok g)
    (hok : g.reserve g.order.toList (Array.replicate g.blockCount []) s = .ok reserved s') :
    ∃ definitions g', definitions.size = g.blockCount ∧
      (∀ ns : List Node, ns.Perm (List.range g.blockCount) →
        renameAlong reserved ns (Array.replicate g.blockCount []) g = .ok definitions g') ∧
      renameEach g.order.toList (s, g) =
        .ok (g.order.toList.map (definitions.getD · [])) (s', g') ∧
      ∀ n ∉ g.order.toList, definitions.getD n [] = [] := by
  have hlaid := build_laid hg
  have hbound : ∀ n ∈ g.order.toList, n < g.blockCount := fun _ hn => hlaid.lt_blockCount hn
  obtain ⟨definitions, g', hone⟩ := exists_renaming hg hok
  have hentered := hone g.order.toList hlaid.nodup_order hbound fun _ hn => hn
  refine ⟨definitions, g', ?_, fun ns hperm => ?_, renameEach_eq hlaid.nodup_order hok hentered,
    fun n hn => ?_⟩
  · rw [(renameAlong_frame hentered).1, Array.size_replicate]
  · refine hone ns (hperm.nodup_iff.2 List.nodup_range)
      (fun n hn => List.mem_range.1 (hperm.mem_iff.1 hn)) fun n hn => ?_
    exact hperm.mem_iff.2 (List.mem_range.2 (hbound n hn))
  · rw [((renameAlong_ok hentered hlaid.nodup_order).unlisted n hn).2, getD_replicate_nil]

/-- **Blocks paired with their ids may be renamed in any order.** -/
theorem renamePaired_eq (hg : ofProgram p = .ok g)
    (hok : g.reserve g.order.toList (Array.replicate g.blockCount []) s = .ok reserved s')
    {order : Nat → List Node} (horder : ∀ count, (order count).Perm (List.range count)) :
    renamePaired order reserved g =
      renameAlong reserved (List.range g.blockCount) (Array.replicate g.blockCount []) g := by
  have hpairs : min g.blockCount reserved.size = g.blockCount := by
    rw [size_reserved hok, Array.size_replicate, Nat.min_self]
  obtain ⟨definitions, g', -, hone, -⟩ := renaming_unordered hg hok
  rw [renamePaired, Outcome.run_bind_ok (x := get) (s := g) rfl, hpairs, hone _ (horder _),
    hone _ (.refl _)]

end Renaming

end FlowGraph

end SingleAssignment
