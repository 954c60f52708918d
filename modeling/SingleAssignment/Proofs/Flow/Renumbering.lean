import SingleAssignment.Proofs.Flow.Relabeling
import SingleAssignment.Proofs.Flow.Scheduling
import SingleAssignment.Proofs.Flow.Search
import SingleAssignment.Proofs.Substitution

/-!
# Flow graphs under an injective map of locals

Renaming and search use locals as keys and compare them for equality, nothing else.  So an injective
map of locals takes them from one flow graph to another: the instructions are mapped, and the border
tables hold the mapped names under the mapped keys.

Border tables cannot be compared as they are, since their order has changed; they are compared by
what they hold for each local.

* `Scope.Renumbered`, `Block.Renumbered`, `FlowGraph.Renumbered` — two scopes, blocks or flow graphs
  that differ by the map only.
* `renameFrom_renumbered` — the walk down a block with mapped ids.
* `FlowGraph.lockstep_renameAlong_renumbered` — **renaming all blocks goes in lockstep.**
* `FlowGraph.Renumbered.reachingDefinitions` — **the search finds the mapped definitions.**
-/

namespace SingleAssignment

variable {τ : Type} {f : Local → Local}

/-! ## Tables -/

theorem compare_map (hf : Function.Injective f) (x y : Local) :
    compare (f x) (f y) = .eq ↔ compare x y = .eq := by
  rw [Std.LawfulEqOrd.compare_eq_iff_eq, Std.LawfulEqOrd.compare_eq_iff_eq, hf.eq_iff]

/-- Under each mapped local, the second table holds the mapped name. -/
def LocalMap.Renumbered (f : Local → Local) (m m' : LocalMap) : Prop := ∀ x, m'[f x]? = m[x]?.map f

namespace LocalMap.Renumbered

theorem empty : LocalMap.Renumbered f ∅ ∅ := fun x => by simp

theorem insert (hf : Function.Injective f) {m m' : LocalMap} (h : LocalMap.Renumbered f m m')
    (x y : Local) : LocalMap.Renumbered f (m.insert x y) (m'.insert (f x) (f y)) := by
  intro z
  rw [Std.TreeMap.getElem?_insert, Std.TreeMap.getElem?_insert, h z]
  simp only [compare_map hf x z]
  split <;> rfl

end LocalMap.Renumbered

/-! ## One block -/

/-- The scopes differ only in that the locals of `t` are those of `s` under `f`. -/
structure Scope.Renumbered (f : Local → Local) (s t : Scope) : Prop where
  imported : ∀ x, t.imported.contains (f x) = s.imported.contains x
  exported : LocalMap.Renumbered f s.exported t.exported

namespace Scope.Renumbered

variable {s t : Scope}

theorem empty : Scope.Renumbered f {} {} := ⟨fun x => by simp, .empty⟩

theorem read (hf : Function.Injective f) (h : s.Renumbered f t) (x : Local) :
    (t.read (f x)).1 = f (s.read x).1 ∧ (s.read x).2.Renumbered f (t.read (f x)).2 := by
  unfold Scope.read
  rw [h.exported x]
  cases s.exported[x]? with
  | some y => exact ⟨rfl, h⟩
  | none =>
      refine ⟨rfl, fun z => ?_, h.exported⟩
      simp only [Option.map_none]
      rw [Std.TreeSet.contains_insert, Std.TreeSet.contains_insert, h.imported z]
      congr 1
      rw [Bool.eq_iff_iff]
      simpa using compare_map hf x z

theorem readAll (hf : Function.Injective f) (h : s.Renumbered f t) (xs : List Local) :
    (t.readAll (xs.map f)).1 = (s.readAll xs).1.map f ∧
      (s.readAll xs).2.Renumbered f (t.readAll (xs.map f)).2 := by
  induction xs generalizing s t with
  | nil => exact ⟨rfl, h⟩
  | cons x xs ih =>
      obtain ⟨hx, hscope⟩ := h.read hf x
      obtain ⟨hxs, hscope⟩ := ih hscope
      exact ⟨congrArg₂ List.cons hx hxs, hscope⟩

theorem define (hf : Function.Injective f) (h : s.Renumbered f t) (x y : Local) :
    (s.define x y).Renumbered f (t.define (f x) (f y)) :=
  ⟨h.imported, h.exported.insert hf x y⟩

end Scope.Renumbered

/-- The walks down a block differ by the map only. -/
structure Renamed.Renumbered (f : Local → Local) (w v : Renamed τ) : Prop where
  instructions : v.instructions = w.instructions.map (Instruction.mapLocals f)
  definitions : v.definitions = w.definitions.map (Prod.map f f)
  scope : w.scope.Renumbered f v.scope
  leftOver : v.leftOver = w.leftOver.map (List.map f)

/-- **The walk down a block with mapped ids and mapped instructions.** -/
theorem renameFrom_renumbered (hf : Function.Injective f) {s t : Scope} (h : s.Renumbered f t)
    (ids : List Local) (is : List (Instruction τ)) :
    (renameFrom s ids is).Renumbered f
      (renameFrom t (ids.map f) (is.map (Instruction.mapLocals f))) := by
  induction is generalizing s t ids with
  | nil => exact ⟨rfl, rfl, h, rfl⟩
  | cons i is ih =>
      obtain ⟨offset, tag, operands, action⟩ := i
      obtain ⟨hops, hscope⟩ := h.readAll hf operands
      rw [List.map_cons]
      cases action with
      | assign x =>
          cases ids with
          | nil =>
              refine ⟨?_, rfl, hscope, rfl⟩
              simp [renameFrom, Instruction.mapLocals, Action.mapDestination, hops]
          | cons id ids =>
              obtain ⟨hi, hd, hs, hl⟩ := ih (hscope.define hf x id) ids
              refine ⟨congrArg₂ List.cons ?_ hi, congrArg (List.cons (f id, f x)) hd, hs, hl⟩
              simp [Instruction.mapLocals, Action.mapDestination, hops]
      | effect =>
          obtain ⟨hi, hd, hs, hl⟩ := ih hscope ids
          refine ⟨congrArg₂ List.cons ?_ hi, hd, hs, hl⟩
          simp [Instruction.mapLocals, Action.mapDestination, hops]
      | branch c t =>
          obtain ⟨hi, hd, hs, hl⟩ := ih hscope ids
          refine ⟨congrArg₂ List.cons ?_ hi, hd, hs, hl⟩
          simp [Instruction.mapLocals, Action.mapDestination, hops]

/-- The blocks differ only in that the locals of `c` are those of `b` under `f`. -/
structure Block.Renumbered (f : Local → Local) (b c : Block τ) : Prop where
  offset : c.offset = b.offset
  instructions : c.instructions = b.instructions.map (Instruction.mapLocals f)
  imports : ∀ x, c.imports (f x) = b.imports x
  exported? : ∀ x, c.exported? (f x) = (b.exported? x).map f

/-- A block without borders, and the block with its instructions mapped. -/
theorem Block.Bare.renumbered {b : Block τ} (h : b.Bare) :
    b.Renumbered f (b.mapCode id (Instruction.mapLocals f)) := by
  obtain ⟨himported, hexported⟩ := h
  refine ⟨rfl, rfl, fun x => ?_, fun x => ?_⟩
  · simp [Block.imports, Block.mapCode, himported]
  · simp [Block.exported?, Block.mapCode, hexported]

theorem Block.Renumbered.assignmentCount {b c : Block τ} (h : b.Renumbered f c) :
    c.assignmentCount = b.assignmentCount := by
  have hsame : Instruction.isAssignment ∘ Instruction.mapLocals f =
      Instruction.isAssignment (τ := τ) := by
    funext i
    simp [Instruction.isAssignment]
  rw [Block.assignmentCount, h.instructions, Array.countP_map, hsame, Block.assignmentCount]

/-- Any two faults; what went wrong is not compared. -/
def Fault.Any (_ _ : Fault) : Prop := True

theorem Block.lockstep_rename_renumbered (hf : Function.Injective f) (ids : List Local) :
    Lockstep Fault.Any (Block.Renumbered (τ := τ) f) (fun ds ds' => ds' = ds.map (Prod.map f f))
      (Block.rename ids) (Block.rename (ids.map f)) := by
  intro b c hb
  have hwalk := renameFrom_renumbered hf .empty ids b.instructions.toList
  rw [show b.instructions.toList.map (Instruction.mapLocals f) = c.instructions.toList by
    rw [hb.instructions, Array.toList_map]] at hwalk
  obtain ⟨hi, hd, hs, hl⟩ := hwalk
  unfold Block.rename
  simp only [hi, hd, hl]
  cases (renameFrom {} ids b.instructions.toList).leftOver with
  | none => exact .error trivial ⟨hb.offset, by simp, hb.imports, hb.exported?⟩
  | some left =>
      cases left with
      | nil => exact .ok rfl ⟨hb.offset, by simp [Block.setBorders], hs.imported, hs.exported⟩
      | cons _ _ => exact .error trivial ⟨hb.offset, by simp, hb.imports, hb.exported?⟩

/-! ## All blocks -/

/-- The flow graphs differ only in that the locals of `k` are those of `g` under `f`. -/
structure FlowGraph.Renumbered (f : Local → Local) (g k : FlowGraph τ) : Prop where
  blockCount : k.blockCount = g.blockCount
  order : k.order = g.order
  predecessors : ∀ n, k.predecessors n = g.predecessors n
  block? : ∀ n, Option.Rel (Block.Renumbered f) (g.block? n) (k.block? n)

namespace FlowGraph

variable {g k : FlowGraph τ}

/-- A flow graph that was just built, and the one with its instructions mapped. -/
theorem Mapped.renumbered (h : g.Mapped id (Instruction.mapLocals f) k) (hbare : AllBare g.graph) :
    g.Renumbered f k := by
  refine ⟨?_, h.order, fun n => ?_, fun n => ?_⟩
  · unfold FlowGraph.blockCount
    rw [h.graph, OrderedGraph.nodeCount_mapNodes]
  · unfold FlowGraph.predecessors
    rw [h.graph]
    rfl
  · unfold FlowGraph.block?
    rw [h.graph, OrderedGraph.node?_mapNodes]
    cases hn : g.graph.node? n with
    | none => exact .none
    | some b => exact .some (hbare n b hn).renumbered

/-- The flow graph of the program with mapped locals. -/
theorem ofProgram_mapLocals (f : Local → Local) (p : Program τ) :
    Agree Fault.Any (fun g k => g.Mapped id (Instruction.mapLocals f) k ∧ g.Renumbered f k)
      (ofProgram p) (ofProgram (p.mapLocals f)) := by
  have hcode : Instruction.MapsOffsets id (Instruction.mapLocals (τ := τ) f) :=
    ⟨fun _ => rfl, fun i => by simp⟩
  have hmapped := ofProgram_map hcode (Set.injOn_id p.offsets)
  change Agree _ _ _ (ofProgram (p.mapLocals f)) at hmapped
  generalize ofProgram (p.mapLocals f) = y at hmapped ⊢
  cases hp : ofProgram p with
  | error e =>
      rw [hp] at hmapped
      cases hmapped
      exact .error trivial
  | ok g =>
      rw [hp] at hmapped
      cases hmapped with
      | ok hg => exact .ok ⟨hg, hg.renumbered (build_bare hp)⟩

namespace Renumbered

theorem setBlock (h : g.Renumbered f k) (n : Node) {b c : Block τ} (hb : b.Renumbered f c) :
    (g.setBlock n b).Renumbered f (k.setBlock n c) := by
  refine ⟨?_, h.order, h.predecessors, fun m => ?_⟩
  · exact (k.graph.nodeCount_modify n _).trans
      (h.blockCount.trans (g.graph.nodeCount_modify n _).symm)
  · have hm := h.block? m
    unfold FlowGraph.block? FlowGraph.setBlock at *
    rw [OrderedGraph.node?_modify, OrderedGraph.node?_modify]
    generalize g.graph.node? m = u at hm ⊢
    generalize k.graph.node? m = v at hm ⊢
    split
    · cases hm with
      | none => exact .none
      | some _ => exact .some hb
    · exact hm

theorem blockOf {σ σ' : Type} {R : σ → σ' → Prop} (h : g.Renumbered f k) (site : Site) (n : Node) :
    Lockstep Fault.Any R (Block.Renumbered f) (g.blockOf site n : EStateM Fault σ (Block τ))
      (k.blockOf site n : EStateM Fault σ' (Block τ)) := by
  have hn := h.block? n
  unfold FlowGraph.blockOf
  generalize g.block? n = u at hn ⊢
  generalize k.block? n = v at hn ⊢
  cases hn with
  | none => exact .throw trivial
  | some hb => exact .pure hb

end Renumbered

/-- **Renaming all blocks goes in lockstep.** -/
theorem lockstep_renameAlong_renumbered (hf : Function.Injective f) (reserved : Array (List Local))
    (ns : List Node) (definitions : Array (List (Local × Local))) :
    Lockstep Fault.Any (FlowGraph.Renumbered (τ := τ) f)
      (fun ds ds' => ds' = ds.map (List.map (Prod.map f f)))
      (renameAlong reserved ns definitions)
      (renameAlong (reserved.map (List.map f)) ns (definitions.map (List.map (Prod.map f f)))) := by
  induction ns generalizing definitions with
  | nil => exact .pure rfl
  | cons n ns ih =>
      have hids : Option.Rel (fun ids ids' => ids' = ids.map f) reserved[n]?
          (reserved.map (List.map f))[n]? := by
        rw [Array.getElem?_map]
        cases reserved[n]? with
        | none => exact .none
        | some ids => exact .some rfl
      refine Lockstep.get.bind fun g k hg =>
        (lockstep_entryAt trivial (hg.block? n)).bind fun b c hb =>
        (lockstep_entryAt trivial hids).bind fun ids ids' heq => ?_
      subst heq
      have hpair := Block.lockstep_rename_renumbered hf ids hb
      generalize Block.rename ids b = x at hpair ⊢
      generalize Block.rename (ids.map f) c = y at hpair ⊢
      cases hpair with
      | ok hds hb =>
          subst hds
          refine (Lockstep.set (hg.setBlock n hb)).bind fun _ _ _ => ?_
          refine (lockstep_withEntry (A := fun ds ds' => ds' = ds.map (List.map (Prod.map f f)))
            trivial Array.size_map Array.map_setIfInBounds.symm).bind fun table table' htable => ?_
          subst htable
          exact ih _
      | error he hb => exact (Lockstep.set (hg.setBlock n hb)).bind fun _ _ _ => .throw he

/-! ## Search -/

theorem Renumbered.contribution? (h : g.Renumbered f k) (x : Local) (n : Node) :
    k.contribution? (f x) n =
      (g.contribution? x n).map (Option.map (Contributor.mapLocals f)) := by
  have hn := h.block? n
  unfold FlowGraph.contribution?
  generalize g.block? n = u at hn ⊢
  generalize k.block? n = v at hn ⊢
  cases hn with
  | none => rfl
  | some hb =>
      simp only [Option.map_some, hb.exported?, hb.offset, Option.map_map]
      rfl

/-- **The search for the mapped local finds the mapped definitions.** -/
theorem Renumbered.reachingDefinitions (h : g.Renumbered f k) (n : Node) (x : Local) :
    Agree Fault.Any (fun cs cs' => cs' = cs.map (Contributor.mapLocals f))
      (g.reachingDefinitions n x) (k.reachingDefinitions n (f x)) :=
  agree_reachingDefinitions trivial h.blockCount h.predecessors (h.contribution? x) n

end FlowGraph

end SingleAssignment
