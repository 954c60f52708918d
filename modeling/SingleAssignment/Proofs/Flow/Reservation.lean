import SingleAssignment.Flow.Reservation
import SingleAssignment.Proofs.Draws
import SingleAssignment.Proofs.Flow.Renaming
import SingleAssignment.Proofs.Flow.Search

/-!
# Renaming all blocks

Ids are reserved in program order and used up node by node.  Both walks touch each node once, so
what they leave at a node is what the one visit put there.

* `FlowGraph.reserve_ok` — the reserved ids, read in program order, are minted one after the other.
* `FlowGraph.length_reserved` — each node has as many ids as its block has assignments.
* `FlowGraph.renameAlong_ok` — each listed node has its block renamed with its own ids.
* `FlowGraph.RenamedTo` — a flow graph with all its blocks renamed: same order, same control flow,
  and the exporting blocks are those that wrote before.
-/

namespace SingleAssignment

variable {τ : Type}

/-! ## Tables -/

section Table

variable {α σ : Type} {table table' : Array α} {n : Nat} {a : α} {s s' : σ}

theorem entryAt_ok (h : (entryAt table n : EStateM Fault σ α) s = .ok a s') :
    table[n]? = some a ∧ s' = s := by
  unfold entryAt at h
  cases hn : table[n]? with
  | none =>
      rw [hn] at h
      cases h
  | some b =>
      rw [hn] at h
      obtain ⟨rfl, rfl⟩ := Outcome.of_run_pure h
      exact ⟨rfl, rfl⟩

theorem entryAt_eq_ok (h : table[n]? = some a) (s : σ) :
    (entryAt table n : EStateM Fault σ α) s = .ok a s := by
  rw [entryAt, h]
  rfl

theorem withEntry_ok (h : (withEntry table n a : EStateM Fault σ (Array α)) s = .ok table' s') :
    n < table.size ∧ table' = table.setIfInBounds n a ∧ s' = s := by
  unfold withEntry at h
  split at h
  · rename_i hn
    obtain ⟨rfl, rfl⟩ := Outcome.of_run_pure h
    exact ⟨hn, rfl, rfl⟩
  · cases h

theorem withEntry_eq_ok (h : n < table.size) (a : α) (s : σ) :
    (withEntry table n a : EStateM Fault σ (Array α)) s = .ok (table.setIfInBounds n a) s := by
  rw [withEntry, if_pos h]
  rfl

theorem getD_setIfInBounds (table : Array (List α)) (n m : Nat) (v : List α)
    (h : n < table.size) :
    (table.setIfInBounds n v).getD m [] = if n = m then v else table.getD m [] := by
  rw [Array.getD_eq_getD_getElem?, Array.getD_eq_getD_getElem?, Array.getElem?_setIfInBounds]
  split
  · rfl
  · rfl

theorem lockstep_entryAt {α' σ' : Type} {E : Fault → Fault → Prop} {R : σ → σ' → Prop}
    {A : α → α' → Prop} {table' : Array α'} (hE : E .indexOutOfBounds .indexOutOfBounds)
    (h : Option.Rel A table[n]? table'[n]?) :
    Lockstep E R A (entryAt table n : EStateM Fault σ α) (entryAt table' n) := by
  unfold entryAt
  generalize table[n]? = u at h ⊢
  generalize table'[n]? = v at h ⊢
  cases h with
  | none => exact .throw hE
  | some ha => exact .pure ha

theorem lockstep_withEntry {α' σ' : Type} {E : Fault → Fault → Prop} {R : σ → σ' → Prop}
    {A : Array α → Array α' → Prop} {table' : Array α'} {a' : α'}
    (hE : E .indexOutOfBounds .indexOutOfBounds) (hsize : table'.size = table.size)
    (h : A (table.setIfInBounds n a) (table'.setIfInBounds n a')) :
    Lockstep E R A (withEntry table n a : EStateM Fault σ (Array α)) (withEntry table' n a') := by
  unfold withEntry
  rw [hsize]
  split
  · exact .pure h
  · exact .throw hE

theorem getElem?_eq_getD {table : Array (List α)} (h : n < table.size) :
    table[n]? = some (table.getD n []) := by
  rw [Array.getD_eq_getD_getElem?, Array.getElem?_eq_getElem h, Option.getD_some]

end Table

namespace FlowGraph

theorem blockOf_ok {σ : Type} {g : FlowGraph τ} {site : Site} {n : Node} {s s' : σ} {b : Block τ}
    (h : (g.blockOf site n : EStateM Fault σ (Block τ)) s = .ok b s') :
    g.block? n = some b ∧ s' = s := by
  unfold blockOf at h
  cases hb : g.block? n with
  | none =>
      rw [hb] at h
      cases h
  | some c =>
      rw [hb] at h
      obtain ⟨rfl, rfl⟩ := Outcome.of_run_pure h
      exact ⟨rfl, rfl⟩

theorem blockOf_eq_ok {σ : Type} {g : FlowGraph τ} {n : Node} {b : Block τ}
    (hb : g.block? n = some b) (site : Site) (s : σ) :
    (g.blockOf site n : EStateM Fault σ (Block τ)) s = .ok b s := by
  rw [blockOf, hb]
  rfl

/-! ## Reservation -/

/-- What is known when ids were reserved for a list of nodes: the first node has a block and a place
in the table, and the rest of the list is served from there on. -/
theorem reserve_cons {g : FlowGraph τ} {n : Node} {ns : List Node}
    {reserved reserved' : Array (List Local)} {s s' : Supply}
    (h : g.reserve (n :: ns) reserved s = .ok reserved' s') :
    ∃ b ids t, g.block? n = some b ∧ n < reserved.size ∧
      Supply.reserve b.assignmentCount s = .ok ids t ∧
      g.reserve ns (reserved.setIfInBounds n ids) t = .ok reserved' s' := by
  obtain ⟨b, s₁, hget, h₁⟩ := Outcome.of_run_bind h
  obtain ⟨hb, rfl⟩ := blockOf_ok hget
  obtain ⟨ids, t, hids, h₂⟩ := Outcome.of_run_bind h₁
  obtain ⟨_, t₁, hentry, h₃⟩ := Outcome.of_run_bind h₂
  obtain ⟨hn, rfl, rfl⟩ := withEntry_ok hentry
  exact ⟨b, ids, t₁, hb, hn, hids, h₃⟩

theorem reserve_ok {g : FlowGraph τ} {ns : List Node} {reserved reserved' : Array (List Local)}
    {s s' : Supply} (h : g.reserve ns reserved s = .ok reserved' s') (hnd : ns.Nodup) :
    s.Mints (ns.flatMap (reserved'.getD · [])) s' ∧
      ∀ m, m ∉ ns → reserved'.getD m [] = reserved.getD m [] := by
  induction ns generalizing reserved s with
  | nil =>
      obtain ⟨rfl, rfl⟩ := Outcome.of_run_pure h
      exact ⟨.nil s, fun m _ => rfl⟩
  | cons n ns ih =>
      obtain ⟨b, ids, t, -, hn, hids, h⟩ := reserve_cons h
      obtain ⟨hnotin, hnd⟩ := List.nodup_cons.1 hnd
      obtain ⟨hmints, hrest⟩ := ih h hnd
      constructor
      · rw [List.flatMap_cons, hrest n hnotin, getD_setIfInBounds _ _ _ _ hn, if_pos rfl]
        exact (Supply.mints_of_mint (Supply.reserve_ok hids).2).append hmints
      · intro m hm
        obtain ⟨hne, hm⟩ := not_or.1 (List.mem_cons.not.1 hm)
        rw [hrest m hm, getD_setIfInBounds _ _ _ _ hn, if_neg (Ne.symm hne)]

/-- Reservation fills in a table and does not change its size. -/
theorem size_reserved {g : FlowGraph τ} {ns : List Node} {reserved reserved' : Array (List Local)}
    {s s' : Supply} (h : g.reserve ns reserved s = .ok reserved' s') :
    reserved'.size = reserved.size := by
  induction ns generalizing reserved s with
  | nil =>
      obtain ⟨rfl, -⟩ := Outcome.of_run_pure h
      rfl
  | cons n ns ih =>
      obtain ⟨b, ids, t, -, -, -, h⟩ := reserve_cons h
      rw [ih h, Array.size_setIfInBounds]

/-- The destinations in the block of a node, none if there is no block. -/
def destinationsAt (g : FlowGraph τ) (n : Node) : List Local :=
  ((g.block? n).map fun b => destinations b.instructions.toList).getD []

theorem destinationsAt_eq {g : FlowGraph τ} {n : Node} {b : Block τ} (hb : g.block? n = some b) :
    g.destinationsAt n = destinations b.instructions.toList := by
  rw [destinationsAt, hb]
  rfl

theorem assignmentCount_eq {g : FlowGraph τ} {n : Node} {b : Block τ} (hb : g.block? n = some b) :
    b.assignmentCount = (g.destinationsAt n).length := by
  rw [destinationsAt_eq hb, b.length_destinations]

/-- Each listed node has as many locals as its block needs. -/
theorem length_reserved {g : FlowGraph τ} {ns : List Node} {reserved reserved' : Array (List Local)}
    {s s' : Supply} (h : g.reserve ns reserved s = .ok reserved' s') (hnd : ns.Nodup)
    {n : Node} (hn : n ∈ ns) :
    (reserved'.getD n []).length = (g.destinationsAt n).length := by
  induction ns generalizing reserved s with
  | nil => cases hn
  | cons m ns ih =>
      obtain ⟨b, ids, t, hb, hm, hids, h⟩ := reserve_cons h
      obtain ⟨hnotin, hnd'⟩ := List.nodup_cons.1 hnd
      rcases List.mem_cons.1 hn with rfl | hn
      · rw [(reserve_ok h hnd').2 n hnotin, getD_setIfInBounds _ _ _ _ hm, if_pos rfl,
          Supply.length_of_mint (Supply.reserve_ok hids).2, assignmentCount_eq hb]
      · exact ih h hnd' hn

/-- What a walk over a list of nodes needs to reserve ids for them: blocks, places in a table of
the given size, and no more assignments than can be asked for at once. -/
structure Reservable (g : FlowGraph τ) (size : Nat) (ns : List Node) : Prop where
  block : ∀ n ∈ ns, ∃ b, g.block? n = some b
  place : ∀ n ∈ ns, n < size
  room : (ns.flatMap g.destinationsAt).length ≤ Supply.largestRequest

section Reservable

variable {g : FlowGraph τ} {size : Nat} {n : Node} {ns : List Node} {b : Block τ}

theorem Reservable.cons (h : g.Reservable size (n :: ns)) :
    ∃ b, g.block? n = some b ∧ n < size ∧ b.assignmentCount ≤ Supply.largestRequest ∧
      g.Reservable size ns := by
  obtain ⟨b, hb⟩ := h.block n List.mem_cons_self
  have hroom := h.room
  rw [List.flatMap_cons, List.length_append, ← assignmentCount_eq hb] at hroom
  exact ⟨b, hb, h.place n List.mem_cons_self, by omega,
    fun m hm => h.block m (List.mem_cons_of_mem n hm),
    fun m hm => h.place m (List.mem_cons_of_mem n hm), by omega⟩

/-- Locals minted in one portion can be reserved node by node. -/
theorem exists_reserve (reserved : Array (List Local)) (hns : g.Reservable reserved.size ns)
    {s s' : Supply} {ids : List Local}
    (h : Supply.mint (ns.flatMap g.destinationsAt).length s = .ok ids s') :
    ∃ reserved', g.reserve ns reserved s = .ok reserved' s' := by
  induction ns generalizing reserved s ids with
  | nil =>
      obtain ⟨-, rfl⟩ := Outcome.of_run_pure h
      exact ⟨reserved, rfl⟩
  | cons n ns ih =>
      obtain ⟨b, hb, hn, hroom, hns⟩ := hns.cons
      rw [List.flatMap_cons, List.length_append, Supply.mint_add, ← assignmentCount_eq hb] at h
      obtain ⟨xs, t, hxs, h⟩ := Outcome.of_run_bind h
      obtain ⟨ys, t', hys, h⟩ := Outcome.of_run_bind h
      obtain ⟨-, rfl⟩ := Outcome.of_run_pure h
      rw [← Supply.reserve_of_le hroom] at hxs
      obtain ⟨reserved', hrest⟩ := ih (reserved.setIfInBounds n xs)
        (Array.size_setIfInBounds.symm ▸ hns) hys
      refine ⟨reserved', ?_⟩
      rw [reserve, Outcome.run_bind_ok (blockOf_eq_ok hb _ s), Outcome.run_bind_ok hxs,
        Outcome.run_bind_ok (withEntry_eq_ok hn xs t)]
      exact hrest

/-- **Reservation costs one local for each assignment.** -/
theorem draws_reserve {used : LocalSet} (reserved : Array (List Local))
    (hns : g.Reservable reserved.size ns) :
    Draws id used (g.reserve ns reserved) (ns.flatMap g.destinationsAt).length fun _ => True := by
  induction ns generalizing reserved with
  | nil => exact .pure trivial
  | cons n ns ih =>
      obtain ⟨b, hb, hn, hroom, hns⟩ := hns.cons
      rw [List.flatMap_cons, List.length_append, ← assignmentCount_eq hb]
      refine .of_answer (blockOf_eq_ok hb _) ((Supply.draws_reserve hroom).bind fun ids _ => ?_)
      exact .of_answer (withEntry_eq_ok hn ids) (ih _ (Array.size_setIfInBounds.symm ▸ hns))

end Reservable

/-! ## Renaming along a list of nodes -/

theorem block?_setBlock {g : FlowGraph τ} {n : Node} {b : Block τ} (hn : g.block? n = some b)
    (c : Block τ) (m : Node) :
    (g.setBlock n c).block? m = if n = m then some c else g.block? m := by
  unfold block? setBlock at *
  rw [OrderedGraph.node?_modify]
  split
  · rename_i he
    rw [← he, hn]
    rfl
  · rfl

/-- What renaming along the nodes `ns` has done to a flow graph. -/
structure RenamedAlong (reserved : Array (List Local)) (ns : List Node)
    (definitions definitions' : Array (List (Local × Local))) (g g' : FlowGraph τ) : Prop where
  order : g'.order = g.order
  predecessors : ∀ n, g'.predecessors n = g.predecessors n
  listed : ∀ n ∈ ns, ∃ b b', g.block? n = some b ∧ g'.block? n = some b' ∧
    Block.rename (reserved.getD n []) b = .ok (definitions'.getD n []) b'
  unlisted : ∀ n, n ∉ ns → g'.block? n = g.block? n ∧
    definitions'.getD n [] = definitions.getD n []

theorem renameAlong_cons {reserved : Array (List Local)} {n : Node} {ns : List Node}
    {definitions definitions' : Array (List (Local × Local))} {g g' : FlowGraph τ}
    (h : renameAlong reserved (n :: ns) definitions g = .ok definitions' g') :
    ∃ b b' ds, g.block? n = some b ∧ n < reserved.size ∧ n < definitions.size ∧
      Block.rename (reserved.getD n []) b = .ok ds b' ∧
      renameAlong reserved ns (definitions.setIfInBounds n ds) (g.setBlock n b') =
        .ok definitions' g' := by
  obtain ⟨_, _, hget, h⟩ := Outcome.of_run_bind h
  cases hget
  obtain ⟨b, _, hblock, h⟩ := Outcome.of_run_bind h
  obtain ⟨hb, rfl⟩ := entryAt_ok hblock
  obtain ⟨ids, _, hentry, h⟩ := Outcome.of_run_bind h
  obtain ⟨hids, rfl⟩ := entryAt_ok hentry
  have hn : n < reserved.size := (Array.getElem?_eq_some_iff.1 hids).1
  obtain rfl : reserved.getD n [] = ids := Option.some.inj ((getElem?_eq_getD hn).symm.trans hids)
  cases hr : Block.rename (reserved.getD n []) b with
  | error e b' =>
      simp only [hr] at h
      obtain ⟨_, _, _, h⟩ := Outcome.of_run_bind h
      cases h
  | ok ds b' =>
      simp only [hr] at h
      obtain ⟨_, _, hset, h⟩ := Outcome.of_run_bind h
      cases hset
      obtain ⟨_, _, hentry, h⟩ := Outcome.of_run_bind h
      obtain ⟨hn', rfl, rfl⟩ := withEntry_ok hentry
      exact ⟨b, b', ds, hb, hn, hn', hr, h⟩

theorem renameAlong_ok {reserved : Array (List Local)} {ns : List Node}
    {definitions definitions' : Array (List (Local × Local))} {g g' : FlowGraph τ}
    (h : renameAlong reserved ns definitions g = .ok definitions' g') (hnd : ns.Nodup) :
    RenamedAlong reserved ns definitions definitions' g g' := by
  induction ns generalizing definitions g with
  | nil =>
      obtain ⟨rfl, rfl⟩ := Outcome.of_run_pure h
      exact ⟨rfl, fun _ => rfl, fun n hn => absurd hn List.not_mem_nil, fun n _ => ⟨rfl, rfl⟩⟩
  | cons n ns ih =>
      obtain ⟨b, b', ds, hb, -, hn, hr, h⟩ := renameAlong_cons h
      obtain ⟨hnotin, hnd⟩ := List.nodup_cons.1 hnd
      have hrest := ih h hnd
      refine ⟨hrest.order, hrest.predecessors, ?_, ?_⟩
      · intro m hm
        rcases List.mem_cons.1 hm with rfl | hm
        · -- later visits leave the node as this one has set it
          obtain ⟨hblock, hdefs⟩ := hrest.unlisted m hnotin
          rw [block?_setBlock hb, if_pos rfl] at hblock
          rw [getD_setIfInBounds _ _ _ _ hn, if_pos rfl] at hdefs
          exact ⟨b, b', hb, hblock, by rw [hdefs]; exact hr⟩
        · obtain ⟨c, c', hc, hc', hrc⟩ := hrest.listed m hm
          rw [block?_setBlock hb, if_neg fun he : n = m => hnotin (he ▸ hm)] at hc
          exact ⟨c, c', hc, hc', hrc⟩
      · intro m hm
        obtain ⟨hne, hm⟩ := not_or.1 (List.mem_cons.not.1 hm)
        obtain ⟨hblock, hdefs⟩ := hrest.unlisted m hm
        rw [block?_setBlock hb, if_neg (Ne.symm hne)] at hblock
        rw [getD_setIfInBounds _ _ _ _ hn, if_neg (Ne.symm hne)] at hdefs
        exact ⟨hblock, hdefs⟩

/-- The tables have a place for node `n`, and its ids are as many as its block needs. -/
def Served (g : FlowGraph τ) (reserved : Array (List Local)) (size : Nat) (n : Node) : Prop :=
  n < reserved.size ∧ n < size ∧ ∃ b, g.block? n = some b ∧
    (reserved.getD n []).length = (destinations b.instructions.toList).length

/-- **Renaming succeeds** if each listed node has as many ids as its block needs. -/
theorem exists_renameAlong {reserved : Array (List Local)} {ns : List Node}
    (definitions : Array (List (Local × Local))) {g : FlowGraph τ} (hnd : ns.Nodup)
    (h : ∀ n ∈ ns, g.Served reserved definitions.size n) :
    ∃ definitions' g', renameAlong reserved ns definitions g = .ok definitions' g' := by
  induction ns generalizing definitions g with
  | nil => exact ⟨definitions, g, rfl⟩
  | cons n ns ih =>
      obtain ⟨hn, hn', b, hb, hlen⟩ := h n List.mem_cons_self
      obtain ⟨ds, b', hr⟩ := Block.exists_rename hlen
      obtain ⟨hnotin, hnd⟩ := List.nodup_cons.1 hnd
      obtain ⟨definitions', g', hrest⟩ :=
        ih (definitions.setIfInBounds n ds) (g := g.setBlock n b') hnd fun m hm => by
          unfold Served
          rw [Array.size_setIfInBounds, block?_setBlock hb,
            if_neg fun he : n = m => hnotin (he ▸ hm)]
          exact h m (List.mem_cons_of_mem n hm)
      refine ⟨definitions', g', ?_⟩
      rw [renameAlong, Outcome.run_bind_ok (x := get) (s := g) rfl,
        Outcome.run_bind_ok (entryAt_eq_ok hb g),
        Outcome.run_bind_ok (entryAt_eq_ok (getElem?_eq_getD hn) g)]
      simp only [hr]
      rw [Outcome.run_bind_ok (x := set (g.setBlock n b')) (s := g) rfl,
        Outcome.run_bind_ok (withEntry_eq_ok hn' ds _)]
      exact hrest

/-! ## The renamed flow graph -/

/-- A flow graph with all its blocks renamed, beside the one it comes from. -/
structure RenamedTo (g g' : FlowGraph τ) : Prop where
  order : g'.order = g.order
  predecessors : ∀ n, g'.predecessors n = g.predecessors n
  blocks : ∀ n, Option.Rel Block.RenamedTo (g.block? n) (g'.block? n)

theorem RenamedAlong.renamedTo {reserved : Array (List Local)}
    {definitions definitions' : Array (List (Local × Local))} {g g' : FlowGraph τ}
    (h : RenamedAlong reserved (List.range g.blockCount) definitions definitions' g g') :
    g.RenamedTo g' := by
  refine ⟨h.order, h.predecessors, fun n => ?_⟩
  by_cases hn : n < g.blockCount
  · obtain ⟨b, b', hb, hb', hr⟩ := h.listed n (List.mem_range.2 hn)
    rw [hb, hb']
    exact .some (Block.rename_ok hr).1
  · have hnone : g.block? n = none := Array.getElem?_eq_none (Nat.not_lt.1 hn)
    rw [(h.unlisted n fun hin => hn (List.mem_range.1 hin)).1, hnone]
    exact .none

namespace RenamedTo

variable {g g' : FlowGraph τ}

theorem block? (h : g.RenamedTo g') {n : Node} {b : Block τ} (hb : g.block? n = some b) :
    ∃ b', g'.block? n = some b' ∧ b.RenamedTo b' := by
  have hrel := h.blocks n
  rw [hb] at hrel
  cases hb' : g'.block? n with
  | none =>
      rw [hb'] at hrel
      cases hrel
  | some b' =>
      rw [hb'] at hrel
      cases hrel with
      | some hr => exact ⟨b', rfl, hr⟩

theorem block?_eq_none (h : g.RenamedTo g') {n : Node} (hb : g.block? n = none) :
    g'.block? n = none := by
  have hrel := h.blocks n
  rw [hb] at hrel
  cases hb' : g'.block? n with
  | none => rfl
  | some b' =>
      rw [hb'] at hrel
      cases hrel

theorem blocksInOrder (h : g.RenamedTo g') :
    List.Forall₂ (fun q q' => q'.1 = q.1 ∧ Block.RenamedTo q.2 q'.2) g.blocksInOrder
      g'.blocksInOrder := by
  unfold FlowGraph.blocksInOrder
  rw [h.order]
  induction g.order.toList with
  | nil => exact .nil
  | cons n ns ih =>
      cases hb : g.block? n with
      | none => simpa [hb, h.block?_eq_none hb] using ih
      | some b =>
          obtain ⟨b', hb', hr⟩ := h.block? hb
          simpa [hb, hb'] using ⟨hr, ih⟩

theorem length_allInstructions (h : g.RenamedTo g') :
    (allInstructions g'.blocksInOrder).length = (allInstructions g.blocksInOrder).length := by
  have hall := h.blocksInOrder
  generalize g.blocksInOrder = blocks, g'.blocksInOrder = blocks' at hall
  induction hall with
  | nil => rfl
  | cons hq _ ih => rw [length_allInstructions_cons, length_allInstructions_cons, ih, hq.2.size]

/-- Blocks keep their places. -/
theorem placed (h : g.RenamedTo g') {n : Node} {b : Block τ} {start : Nat}
    (hp : Placed g.blocksInOrder n b start) :
    ∃ b', Placed g'.blocksInOrder n b' start ∧ b.RenamedTo b' := by
  obtain ⟨front, back, hblocks, rfl⟩ := hp
  have hall := h.blocksInOrder
  rw [hblocks] at hall
  generalize g'.blocksInOrder = blocks' at hall
  clear hblocks
  induction front generalizing blocks' with
  | nil =>
      obtain ⟨⟨n', b'⟩, back', ⟨rfl, hr⟩, -, rfl⟩ := List.forall₂_cons_left_iff.1 hall
      exact ⟨b', ⟨[], back', rfl, rfl⟩, hr⟩
  | cons q front ih =>
      obtain ⟨q', rest, ⟨-, hq⟩, hrest, rfl⟩ := List.forall₂_cons_left_iff.1 hall
      obtain ⟨b', ⟨front', back', rfl, hlen⟩, hr⟩ := ih rest hrest
      refine ⟨b', ⟨q' :: front', back', rfl, ?_⟩, hr⟩
      rw [length_allInstructions_cons, length_allInstructions_cons, hq.size, hlen]

theorem exports_iff (h : g.RenamedTo g') {x : Local} {n : Node} :
    g'.Exports x n ↔ g.Writes x n := by
  cases hb : g.block? n with
  | none => simp [Exports, Writes, hb, h.block?_eq_none hb]
  | some b =>
      obtain ⟨b', hb', hr⟩ := h.block? hb
      have hsame : (∃ y, b'.exported? x = some y) ↔ ∃ l, b.Assigns x l := by
        constructor
        · rintro ⟨y, hy⟩
          by_contra hno
          rw [hr.exports_none fun l hl => hno ⟨l, hl⟩] at hy
          cases hy
        · rintro ⟨l, hl⟩
          obtain ⟨l', hlast⟩ := Block.exists_lastAssigns hl
          obtain ⟨r, y, hr', hy, -⟩ := hr.renamed_assignment hlast.1
          exact ⟨y, (hr.exports hlast hr').trans hy⟩
      simpa [Exports, Writes, hb, hb'] using hsame

theorem supplies_iff (h : g.RenamedTo g') {x : Local} {d n : Node} :
    g'.Supplies (g'.Exports x) d n ↔ g.Supplies (g.Writes x) d n := by
  constructor
  · intro hs
    induction hs with
    | direct hpred hw => exact .direct (h.predecessors _ ▸ hpred) (h.exports_iff.1 hw)
    | through hpred hw _ ih =>
        exact .through (h.predecessors _ ▸ hpred) (fun hw' => hw (h.exports_iff.2 hw')) ih
  · intro hs
    induction hs with
    | direct hpred hw => exact .direct (h.predecessors _ ▸ hpred) (h.exports_iff.2 hw)
    | through hpred hw _ ih =>
        exact .through (h.predecessors _ ▸ hpred) (fun hw' => hw (h.exports_iff.1 hw')) ih

end RenamedTo

end FlowGraph

end SingleAssignment
