import Mathlib.Data.Set.Function
import SingleAssignment.Flow.Build
import SingleAssignment.Proofs.BitSet
import SingleAssignment.Proofs.Lockstep

/-!
# Flow graphs under a map of instructions

Offsets are names.  If a map keeps the offsets that a program mentions apart, the scan of the mapped
program goes in lockstep with the scan of the program: it creates the same nodes and edges, and only
the offsets inside the blocks are mapped.  Beyond offsets and branch targets a scan reads nothing of
an instruction, so the map may do anything to the rest.

Tables that have offsets as keys cannot be compared as they are, since their order has changed.
`Scan.Relabeled` compares them by what they hold for each offset of a set `D` on which the map is
injective.

* `Program.mapOffsets`, `Block.mapOffsets`, `Fault.mapOffsets` — offsets replaced.
* `Instruction.MapsOffsets` — a map of instructions that acts on offsets in a given way.
* `Scan.Relabeled`, `FlowGraph.Mapped` — two scans or flow graphs that differ by the map only.
* `Scan.Relabeled.step` — one instruction keeps two scans together.
* `FlowGraph.ofProgram_map` — **the flow graph of the mapped program is the mapped flow graph.**
-/

namespace SingleAssignment

variable {τ : Type} {r : Offset → Offset} {φ : Instruction τ → Instruction τ} {D : Set Offset}

/-! ## Mapping offsets -/

/-- The action with its branch target replaced. -/
def Action.mapTarget (r : Offset → Offset) : Action → Action
  | .assign d => .assign d
  | .effect => .effect
  | .branch c t => .branch c (r t)

/-- The instruction with its offset and its branch target replaced. -/
def Instruction.mapOffsets (r : Offset → Offset) (i : Instruction τ) : Instruction τ :=
  { i with offset := r i.offset, action := i.action.mapTarget r }

/-- The program with all offsets and branch targets replaced. -/
def Program.mapOffsets (r : Offset → Offset) (p : Program τ) : Program τ :=
  .ofList (p.instructions.toList.map (Instruction.mapOffsets r))

/-- The block with all offsets replaced. -/
def Block.mapOffsets (r : Offset → Offset) (b : Block τ) : Block τ :=
  { b with offset := r b.offset, instructions := b.instructions.map (Instruction.mapOffsets r) }

/-- The violation with its offset replaced. -/
def Violation.mapOffsets (r : Offset → Offset) : Violation → Violation
  | .reservationShort block reserved => .reservationShort (r block) reserved
  | .reservationLong block reserved renamed => .reservationLong (r block) reserved renamed
  | .missingBlock node => .missingBlock node
  | .missingCurrent node => .missingCurrent node

/-- The fault with its offsets replaced. -/
def Fault.mapOffsets (r : Offset → Offset) : Fault → Fault
  | .emptyProgram => .emptyProgram
  | .duplicateOffset offset => .duplicateOffset (r offset)
  | .danglingBranchTarget branch target => .danglingBranchTarget (r branch) (r target)
  | .localsExhausted => .localsExhausted
  | .graph cause => .graph cause
  | .invariantViolation cause site => .invariantViolation (cause.mapOffsets r) site
  | .indexOutOfBounds => .indexOutOfBounds
  | .capacityOverflow => .capacityOverflow

theorem Fault.mapOffsets_id (e : Fault) : e.mapOffsets id = e := by
  cases e with
  | invariantViolation cause site => cases cause <;> rfl
  | _ => rfl

/-- The fault of one computation is that of the other with its offsets mapped. -/
def Fault.Relabeled (r : Offset → Offset) (e f : Fault) : Prop := f = e.mapOffsets r

/-- The offsets that an instruction mentions. -/
def Instruction.Mentions (i : Instruction τ) (o : Offset) : Prop :=
  i.offset = o ∨ ∃ c, i.branch? = some (c, o)

/-- The offsets that a program mentions: those of its instructions and the targets of its
branches. -/
def Program.offsets (p : Program τ) : Set Offset := {o | ∃ i ∈ p.instructions, i.Mentions o}

theorem Instruction.mapOffsets_id (i : Instruction τ) : i.mapOffsets id = i := by
  obtain ⟨offset, tag, operands, action⟩ := i
  cases action <;> rfl

theorem Program.mapOffsets_id (p : Program τ) : p.mapOffsets id = p := by
  refine ext_instructions ?_
  rw [mapOffsets, show Instruction.mapOffsets (τ := τ) id = id from
    funext Instruction.mapOffsets_id, List.map_id, instructions_ofList]

@[simp] theorem Instruction.branch?_mapOffsets (i : Instruction τ) :
    (i.mapOffsets r).branch? = i.branch?.map fun b => (b.1, r b.2) := by
  unfold branch? mapOffsets
  cases i.action <;> rfl

@[simp] theorem Instruction.destination?_mapOffsets (i : Instruction τ) :
    (i.mapOffsets r).destination? = i.destination? := by
  unfold destination? mapOffsets
  cases i.action <;> rfl

@[simp] theorem Instruction.kind_mapOffsets (i : Instruction τ) :
    (i.mapOffsets r).kind = i.kind := by
  unfold kind mapOffsets
  cases i.action <;> rfl

/-! ## Mapping instructions -/

/-- `φ` replaces offsets and branch targets as `r` does, whatever else it does. -/
structure Instruction.MapsOffsets (r : Offset → Offset) (φ : Instruction τ → Instruction τ) :
    Prop where
  offset : ∀ i, (φ i).offset = r i.offset
  branch? : ∀ i, (φ i).branch? = i.branch?.map fun b => (b.1, r b.2)

theorem Instruction.mapsOffsets (r : Offset → Offset) :
    Instruction.MapsOffsets r (Instruction.mapOffsets (τ := τ) r) :=
  ⟨fun _ => rfl, Instruction.branch?_mapOffsets⟩

/-- The program with all instructions replaced. -/
def Program.map (φ : Instruction τ → Instruction τ) (p : Program τ) : Program τ :=
  .ofList (p.instructions.toList.map φ)

theorem Program.toList_map (p : Program τ) :
    (p.map φ).instructions.toList = p.instructions.toList.map φ := by
  rw [map, instructions_ofList]

/-- The block with its offset and its instructions replaced. -/
def Block.mapCode (r : Offset → Offset) (φ : Instruction τ → Instruction τ) (b : Block τ) :
    Block τ :=
  { b with offset := r b.offset, instructions := b.instructions.map φ }

/-- Instructions and mapped instructions side by side, with their offsets in `D`. -/
def Instruction.Relabeled (φ : Instruction τ → Instruction τ) (D : Set Offset)
    (i j : Instruction τ) : Prop :=
  j = φ i ∧ ∀ o, i.Mentions o → o ∈ D

/-! ## Graphs -/

namespace OrderedGraph

variable {ν ε : Type}

@[simp] theorem nodeCount_mapNodes (g : OrderedGraph ν ε) (f : ν → ν) :
    (g.mapNodes f).nodeCount = g.nodeCount := by
  simp [mapNodes_eq, nodeCount]

theorem node?_mapNodes (g : OrderedGraph ν ε) (f : ν → ν) (n : Node) :
    (g.mapNodes f).node? n = (g.node? n).map f := by
  simp [mapNodes_eq, node?]

theorem addNode_mapNodes (g : OrderedGraph ν ε) (f : ν → ν) (data : ν) :
    (g.mapNodes f).addNode (f data) =
      ((g.addNode data).1, (g.addNode data).2.mapNodes f) := by
  simp [mapNodes_eq, addNode]

theorem modify_mapNodes (g : OrderedGraph ν ε) {f u v : ν → ν} (h : ∀ a, v (f a) = f (u a))
    (n : Node) : (g.mapNodes f).modify n v = (g.modify n u).mapNodes f := by
  rw [mapNodes_eq, mapNodes_eq]
  unfold modify
  congr 1
  apply Array.ext_getElem?
  intro m
  simp only [Array.getElem?_modify, Array.getElem?_map]
  split
  · cases g.nodes[m]? with
    | none => rfl
    | some a => simp [h]
  · rfl

/-- Adding an edge does not look at payloads. -/
theorem addEdge_mapNodes (f : ν → ν) (source target : Node) (label : ε) :
    Lockstep (Fault.Relabeled r) (fun g g' : OrderedGraph ν ε => g' = g.mapNodes f) Eq
      (addEdge source target label) (addEdge source target label) := by
  intro g g' hg
  subst hg
  unfold addEdge
  rw [nodeCount_mapNodes]
  split
  · exact .error rfl rfl
  · split
    · exact .error rfl rfl
    · rw [show (g.mapNodes f).successors source = g.successors source from rfl]
      split
      · exact .ok rfl rfl
      · exact .ok rfl rfl

end OrderedGraph

/-! ## Scans -/

/-- The scans differ only in that the offsets of `t` are those of `s` under `r`, and its instructions
those of `s` under `φ`. -/
structure Scan.Relabeled (r : Offset → Offset) (φ : Instruction τ → Instruction τ) (D : Set Offset)
    (s t : Scan τ) : Prop where
  graph : t.graph = s.graph.mapNodes (Block.mapCode r φ)
  nodeAt : ∀ o ∈ D, t.nodeAt[r o]? = s.nodeAt[o]?
  order : t.order = s.order
  current : t.current = s.current
  lastBranch : t.lastBranch = s.lastBranch
  seen : ∀ o ∈ D, t.seen.contains (r o) = s.seen.contains o
  branches : t.branches = s.branches.map (Prod.map r r)
  targets : ∀ b ∈ s.branches, b.2 ∈ D

/-- On `D`, keys are equal after the map iff they were before. -/
theorem compare_map_eq (hr : Set.InjOn r D) {o o' : Offset} (ho : o ∈ D) (ho' : o' ∈ D) :
    compare (r o) (r o') = .eq ↔ compare o o' = .eq := by
  rw [Std.LawfulEqOrd.compare_eq_iff_eq, Std.LawfulEqOrd.compare_eq_iff_eq]
  exact hr.eq_iff ho ho'

namespace Scan.Relabeled

variable {s t : Scan τ} {o : Offset}

theorem blockAt (hr : Set.InjOn r D) (h : s.Relabeled r φ D t) (ho : o ∈ D) :
    (t.blockAt (r o)).1 = (s.blockAt o).1 ∧
      (s.blockAt o).2.Relabeled r φ D (t.blockAt (r o)).2 := by
  unfold Scan.blockAt
  rw [h.nodeAt o ho]
  cases hn : s.nodeAt[o]? with
  | some n => exact ⟨rfl, h⟩
  | none =>
      have hadd := s.graph.addNode_mapNodes (Block.mapCode r φ) (Block.empty o)
      rw [← h.graph, show (Block.empty o).mapCode r φ = Block.empty (r o) by
        simp [Block.mapCode, Block.empty]] at hadd
      simp only [hadd]
      refine ⟨trivial, rfl, fun o' ho' => ?_, h.order, h.current, h.lastBranch, h.seen, h.branches,
        h.targets⟩
      rw [Std.TreeMap.getElem?_insert, Std.TreeMap.getElem?_insert, h.nodeAt o' ho']
      simp only [compare_map_eq hr ho ho']

theorem note (hr : Set.InjOn r D) (h : s.Relabeled r φ D t) (ho : o ∈ D) :
    Agree (Fault.Relabeled r) (Scan.Relabeled r φ D) (s.note o) (t.note (r o)) := by
  unfold Scan.note
  rw [h.seen o ho]
  split
  · exact .error rfl
  · refine .ok ⟨h.graph, h.nodeAt, h.order, h.current, h.lastBranch, fun o' ho' => ?_, h.branches,
      h.targets⟩
    rw [Std.TreeSet.contains_insert, Std.TreeSet.contains_insert, h.seen o' ho']
    congr 1
    rw [Bool.eq_iff_iff]
    simpa using compare_map_eq hr ho ho'

theorem link (h : s.Relabeled r φ D t) (n : Node) (kind : EdgeKind) :
    Agree (Fault.Relabeled r) (Scan.Relabeled r φ D) (s.link n kind) (t.link n kind) := by
  have hadd := OrderedGraph.addEdge_mapNodes (r := r) (Block.mapCode r φ) s.current n kind h.graph
  unfold Scan.link
  rw [h.current]
  generalize OrderedGraph.addEdge s.current n kind s.graph = x at hadd ⊢
  generalize OrderedGraph.addEdge s.current n kind t.graph = y at hadd ⊢
  cases hadd with
  | ok _ hg =>
      exact .ok ⟨hg, h.nodeAt, h.order, rfl, h.lastBranch, h.seen, h.branches, h.targets⟩
  | error he _ => exact .error he

theorem enter (hr : Set.InjOn r D) (h : s.Relabeled r φ D t) (ho : o ∈ D) :
    Agree (Fault.Relabeled r) (Scan.Relabeled r φ D) (s.enter o) (t.enter (r o)) := by
  obtain ⟨hn, hat⟩ := h.blockAt hr ho
  unfold Scan.enter
  simp only [hn]
  have hon : (t.blockAt (r o)).2.onward? = (s.blockAt o).2.onward? := by
    unfold Scan.onward?
    rw [hat.lastBranch]
  have hmove : ∀ u v : Scan τ, u.Relabeled r φ D v →
      Scan.Relabeled r φ D
        { u with order := u.order.push (s.blockAt o).1, current := (s.blockAt o).1 }
        { v with order := v.order.push (s.blockAt o).1, current := (s.blockAt o).1 } := by
    intro u v huv
    refine ⟨huv.graph, huv.nodeAt, ?_, rfl, huv.lastBranch, huv.seen, huv.branches, huv.targets⟩
    rw [huv.order]
  rw [hon]
  cases (s.blockAt o).2.onward? with
  | none => exact .ok (hmove _ _ hat)
  | some kind => exact (hat.link _ kind).bind fun u v huv => .ok (hmove u v huv)

theorem follow (hφ : Instruction.MapsOffsets r φ) (hr : Set.InjOn r D)
    (h : s.Relabeled r φ D t) {i : Instruction τ} (hi : ∀ o, i.Mentions o → o ∈ D) :
    Agree (Fault.Relabeled r) (Scan.Relabeled r φ D) (s.follow i) (t.follow (φ i)) := by
  unfold Scan.follow
  rw [hφ.branch?, hφ.offset]
  cases hb : i.branch? with
  | none =>
      exact .ok ⟨h.graph, h.nodeAt, h.order, h.current, rfl, h.seen, h.branches, h.targets⟩
  | some b =>
      obtain ⟨conditional, target⟩ := b
      have htarget : target ∈ D := hi target (.inr ⟨conditional, hb⟩)
      obtain ⟨hn, hat⟩ := h.blockAt hr htarget
      simp only [Option.map_some, hn]
      refine (hat.link _ _).bind fun u v huv => ?_
      refine .ok ⟨huv.graph, huv.nodeAt, huv.order, huv.current, rfl, huv.seen, ?_, ?_⟩
      · rw [huv.branches, Array.map_push]
        rfl
      · intro b hb
        rcases Array.mem_push.1 hb with hb | rfl
        · exact huv.targets b hb
        · exact htarget

theorem place (h : s.Relabeled r φ D t) (i : Instruction τ) :
    Agree (Fault.Relabeled r) (Scan.Relabeled r φ D) (s.place i) (t.place (φ i)) := by
  unfold Scan.place
  rw [h.graph, h.current, OrderedGraph.nodeCount_mapNodes]
  split
  · refine .ok ⟨?_, h.nodeAt, h.order, rfl, h.lastBranch, h.seen, h.branches, h.targets⟩
    exact OrderedGraph.modify_mapNodes _ (fun b => by simp [Block.push, Block.mapCode]) _
  · exact .error rfl

theorem first (hφ : Instruction.MapsOffsets r φ) (hr : Set.InjOn r D)
    (h : s.Relabeled r φ D t) {i : Instruction τ} (hi : ∀ o, i.Mentions o → o ∈ D) :
    Agree (Fault.Relabeled r) (Scan.Relabeled r φ D) (s.first i) (t.first (φ i)) := by
  unfold Scan.first
  rw [hφ.offset]
  exact (h.note hr (hi _ (.inl rfl))).bind fun _ _ h₁ =>
    (h₁.follow hφ hr hi).bind fun _ _ h₂ => h₂.place i

/-- **One instruction keeps two scans together.** -/
theorem step (hφ : Instruction.MapsOffsets r φ) (hr : Set.InjOn r D)
    (h : s.Relabeled r φ D t) {labels labels' : Std.TreeSet Offset}
    (hlabels : ∀ o ∈ D, labels'.contains (r o) = labels.contains o) {i : Instruction τ}
    (hi : ∀ o, i.Mentions o → o ∈ D) :
    Agree (Fault.Relabeled r) (Scan.Relabeled r φ D) (s.step labels i)
      (t.step labels' (φ i)) := by
  have ho : i.offset ∈ D := hi _ (.inl rfl)
  unfold Scan.step
  rw [hφ.offset]
  refine (h.note hr ho).bind fun u v h₁ => ?_
  have hrest : ∀ u v : Scan τ, u.Relabeled r φ D v →
      Agree (Fault.Relabeled r) (Scan.Relabeled r φ D) (u.follow i >>= fun u => u.place i)
        (v.follow (φ i) >>= fun v => v.place (φ i)) :=
    fun u v h₂ => (h₂.follow hφ hr hi).bind fun _ _ h₃ => h₃.place i
  have hcut : (v.lastBranch.isSome || labels'.contains (r i.offset)) =
      (u.lastBranch.isSome || labels.contains i.offset) := by
    rw [h₁.lastBranch, hlabels _ ho]
  simp only [hcut]
  split
  · exact (h₁.enter hr ho).bind hrest
  · exact hrest u v h₁

theorem start (hr : Set.InjOn r D) (ho : o ∈ D) :
    (Scan.start o : Scan τ).Relabeled r φ D (Scan.start (r o)) := by
  refine ⟨?_, fun o' ho' => ?_, rfl, rfl, rfl, fun _ _ => by simp [Scan.start], by simp [Scan.start],
    by simp [Scan.start]⟩
  · have hadd := (OrderedGraph.empty : OrderedGraph (Block τ) EdgeKind).addNode_mapNodes
      (Block.mapCode r φ) (Block.empty o)
    simpa [OrderedGraph.mapNodes_eq, OrderedGraph.empty, Block.mapCode, Block.empty, Scan.start]
      using congrArg (·.2) hadd
  · simp only [Scan.start]
    rw [Std.TreeMap.getElem?_insert, Std.TreeMap.getElem?_insert]
    simp only [compare_map_eq hr ho ho']
    simp [OrderedGraph.addNode, OrderedGraph.empty]

end Scan.Relabeled

/-! ## Flow graphs -/

/-- The flow graphs differ only in that the offsets of `g'` are those of `g` under `r`, and its
instructions those of `g` under `φ`. -/
structure FlowGraph.Mapped (r : Offset → Offset) (φ : Instruction τ → Instruction τ)
    (g g' : FlowGraph τ) : Prop where
  graph : g'.graph = g.graph.mapNodes (Block.mapCode r φ)
  order : g'.order = g.order
  dangling : g'.dangling = g.dangling.map (Prod.map r r)

/-- The flow graphs differ only in that the offsets of `g'` are those of `g` under `r`. -/
structure FlowGraph.Relabeled (r : Offset → Offset) (g g' : FlowGraph τ) : Prop where
  graph : g'.graph = g.graph.mapNodes (Block.mapOffsets r)
  order : g'.order = g.order
  dangling : g'.dangling = g.dangling.map (Prod.map r r)

/-- A bit set does not know of offsets. -/
theorem BitSet.agree_ofList (capacity : Nat) (is : List Nat) :
    Agree (Fault.Relabeled r) Eq (BitSet.ofList capacity is) (BitSet.ofList capacity is) := by
  unfold BitSet.ofList
  refine Agree.foldlM (P := Eq) ?_ (List.forall₂_refl is) rfl
  intro u v i j huv hij
  subst huv
  subst hij
  cases hi : BitSet.insert i u with
  | ok _ t => exact .ok rfl
  | error e t =>
      rw [BitSet.eq_of_insert_error hi]
      exact .error rfl

theorem Scan.Relabeled.leavesProgram {s t : Scan τ} (h : s.Relabeled r φ D t) (reached : BitSet)
    {o : Offset} (ho : o ∈ D) :
    Agree (Fault.Relabeled r) Eq (s.leavesProgram reached o) (t.leavesProgram reached (r o)) := by
  unfold Scan.leavesProgram
  rw [h.nodeAt o ho]
  cases s.nodeAt[o]? with
  | none => exact .ok rfl
  | some n =>
      simp only
      cases hn : reached.contains n with
      | ok entered => exact .ok rfl
      | error e =>
          obtain ⟨-, rfl⟩ := BitSet.contains_eq_error_iff.1 hn
          exact .error rfl

theorem Scan.Relabeled.danglingAmong {s t : Scan τ} (h : s.Relabeled r φ D t) (reached : BitSet)
    {branches : List (Offset × Offset)} (hD : ∀ b ∈ branches, b.2 ∈ D) :
    Agree (Fault.Relabeled r) (fun bs bs' => bs' = bs.map (Prod.map r r))
      (s.danglingAmong reached branches)
      (t.danglingAmong reached (branches.map (Prod.map r r))) := by
  induction branches with
  | nil => exact .ok rfl
  | cons b branches ih =>
      refine (h.leavesProgram reached (hD b List.mem_cons_self)).bind fun leaves _ heq => ?_
      subst heq
      refine (ih fun b' hb' => hD b' (List.mem_cons_of_mem b hb')).bind fun bs _ heq => ?_
      subst heq
      refine .ok ?_
      cases leaves <;> rfl

theorem Scan.Relabeled.finish {s t : Scan τ} (h : s.Relabeled r φ D t) :
    Agree (Fault.Relabeled r) (FlowGraph.Mapped r φ) s.finish t.finish := by
  unfold Scan.finish
  rw [h.graph, h.order, h.branches, Array.toList_map, OrderedGraph.nodeCount_mapNodes]
  refine (BitSet.agree_ofList s.graph.nodeCount s.order.toList).bind fun reached _ heq => ?_
  subst heq
  have hD : ∀ b ∈ s.branches.toList, b.2 ∈ D := fun b hb => h.targets b (Array.mem_toList_iff.1 hb)
  refine (h.danglingAmong reached hD).bind fun bs _ heq => ?_
  subst heq
  exact .ok ⟨rfl, rfl, by simp⟩

theorem Program.contains_labels_map (hφ : Instruction.MapsOffsets r φ) {p : Program τ}
    (hr : Set.InjOn r p.offsets) {o : Offset} (ho : o ∈ p.offsets) :
    (p.map φ).labels.contains (r o) = p.labels.contains o := by
  rw [Bool.eq_iff_iff, ← Std.TreeSet.mem_iff_contains, ← Std.TreeSet.mem_iff_contains, mem_labels,
    mem_labels]
  constructor
  · intro h
    obtain ⟨j, hj, c, hc⟩ := h
    rw [toList_map] at hj
    obtain ⟨i, hi, rfl⟩ := List.mem_map.1 hj
    rw [hφ.branch?, Option.map_eq_some_iff] at hc
    obtain ⟨⟨c', t⟩, hb, heq⟩ := hc
    have ht : t ∈ p.offsets := ⟨i, Array.mem_toList_iff.1 hi, .inr ⟨c', hb⟩⟩
    rw [hr ht ho (congrArg Prod.snd heq)] at hb
    exact ⟨i, hi, c', hb⟩
  · intro h
    obtain ⟨i, hi, c, hc⟩ := h
    refine ⟨φ i, ?_, c, by rw [hφ.branch?, hc]; rfl⟩
    rw [toList_map]
    exact List.mem_map_of_mem hi

/-- **The flow graph of the mapped program is the mapped flow graph.** -/
theorem FlowGraph.ofProgram_map (hφ : Instruction.MapsOffsets r φ) {p : Program τ}
    (hr : Set.InjOn r p.offsets) :
    Agree (Fault.Relabeled r) (FlowGraph.Mapped r φ) (FlowGraph.ofProgram p)
      (FlowGraph.ofProgram (p.map φ)) := by
  have hmentions : ∀ i ∈ p.instructions.toList, ∀ o, i.Mentions o → o ∈ p.offsets :=
    fun i hi o ho => ⟨i, Array.mem_toList_iff.1 hi, ho⟩
  unfold ofProgram
  rw [p.toList_map]
  cases his : p.instructions.toList with
  | nil => exact .error rfl
  | cons i is =>
      rw [his] at hmentions
      have hi := hmentions i List.mem_cons_self
      have hstart : (Scan.start i.offset).Relabeled r φ p.offsets (Scan.start (φ i).offset) := by
        rw [hφ.offset]
        exact .start hr (hi _ (.inl rfl))
      rw [List.map_cons]
      refine (hstart.first hφ hr hi).bind fun s t hst => ?_
      refine Agree.bind (A := Scan.Relabeled r φ p.offsets) ?_ fun _ _ h => h.finish
      refine Agree.foldlM (P := Instruction.Relabeled φ p.offsets) ?_ ?_ hst
      · intro s t i j hst hij
        rw [hij.1]
        exact hst.step hφ hr (fun o ho => Program.contains_labels_map hφ hr ho) hij.2
      · rw [List.forall₂_map_right_iff, List.forall₂_same]
        exact fun j hj => ⟨rfl, hmentions j (List.mem_cons_of_mem i hj)⟩

theorem FlowGraph.ofProgram_mapOffsets {p : Program τ} (hr : Set.InjOn r p.offsets) :
    Agree (Fault.Relabeled r) (FlowGraph.Relabeled r) (FlowGraph.ofProgram p)
      (FlowGraph.ofProgram (p.mapOffsets r)) :=
  (ofProgram_map (Instruction.mapsOffsets r) hr).imp fun _ _ hg => ⟨hg.graph, hg.order, hg.dangling⟩

end SingleAssignment
