import SingleAssignment.Proofs.Convert.Stream
import SingleAssignment.Proofs.Flow.Relabeling

/-!
# Conversions under a map of offsets

The flow graphs of a program and of the mapped program differ only in the offsets of their blocks.
Renaming, search and emission hand offsets on and never compare them, so the two conversions go in
lockstep to the end: they take the same locals from their supplies, and their events differ by the
map only.

The journal is left out of the comparison.  This makes room for another difference: the conversions
may have different schedules, which leave their mark in the journal only (`Run.renameBlocks_eq`).

* `Event.mapOffsets` — offsets of an event replaced.
* `Run.Relabeled` — same supply, same statistics, events that differ by the map and follow those
  that one run may have received earlier.
* `convert_relabeled` — **two conversions whose programs differ by the map.**
* `convert_outcome_agree` — **two conversions of one program, under whatever schedules.**
-/

namespace SingleAssignment

variable {τ : Type} {r : Offset → Offset}

/-! ## Mapping offsets -/

/-- The contributor with the offset of its block replaced. -/
def Contributor.mapOffsets (r : Offset → Offset) (c : Contributor) : Contributor :=
  { c with predecessor := r c.predecessor }

/-- The phi with its offset and those of its contributors replaced. -/
def Phi.mapOffsets (r : Offset → Offset) (φ : Phi) : Phi :=
  { φ with
    offset := r φ.offset
    contributors := φ.contributors.map (Contributor.mapOffsets r) }

/-- The event with all offsets replaced. -/
def Event.mapOffsets (r : Offset → Offset) : Event τ → Event τ
  | .unalias fresh origin => .unalias fresh origin
  | .phi φ => .phi (φ.mapOffsets r)
  | .instruction i => .instruction (i.mapOffsets r)

theorem Event.mapOffsets_id (e : Event τ) : e.mapOffsets id = e := by
  cases e with
  | unalias fresh origin => rfl
  | phi φ =>
      rw [mapOffsets, Phi.mapOffsets, show Contributor.mapOffsets id = id from rfl, List.map_id]
      rfl
  | instruction i => rw [mapOffsets, Instruction.mapOffsets_id]

namespace FlowGraph.Relabeled

variable {g g' : FlowGraph τ}

theorem block? (h : g.Relabeled r g') (n : Node) :
    g'.block? n = (g.block? n).map (Block.mapOffsets r) := by
  unfold FlowGraph.block?
  rw [h.graph, OrderedGraph.node?_mapNodes]

theorem predecessors (h : g.Relabeled r g') (n : Node) : g'.predecessors n = g.predecessors n := by
  unfold FlowGraph.predecessors
  rw [h.graph]
  rfl

theorem rel_block? (h : g.Relabeled r g') (n : Node) :
    Option.Rel (fun b b' => b' = b.mapOffsets r) (g.block? n) (g'.block? n) := by
  rw [h.block? n]
  cases g.block? n with
  | none => exact .none
  | some b => exact .some rfl

theorem blockCount (h : g.Relabeled r g') : g'.blockCount = g.blockCount := by
  unfold FlowGraph.blockCount
  rw [h.graph, OrderedGraph.nodeCount_mapNodes]

theorem setBlock (h : g.Relabeled r g') (n : Node) (b : Block τ) :
    (g.setBlock n b).Relabeled r (g'.setBlock n (b.mapOffsets r)) := by
  refine ⟨?_, h.order, h.dangling⟩
  show g'.graph.modify n (fun _ => b.mapOffsets r) = (g.graph.modify n fun _ => b).mapNodes _
  rw [h.graph]
  exact g.graph.modify_mapNodes (f := Block.mapOffsets r) (u := fun _ => b) (fun _ => rfl) n

theorem blockOf {σ σ' : Type} {R : σ → σ' → Prop} (h : g.Relabeled r g') (site : Site) (n : Node) :
    Lockstep (Fault.Relabeled r) R (fun b b' => b' = b.mapOffsets r)
      (g.blockOf site n : EStateM Fault σ (Block τ))
      (g'.blockOf site n : EStateM Fault σ' (Block τ)) := by
  unfold FlowGraph.blockOf
  rw [h.block? n]
  cases g.block? n with
  | none => exact .throw rfl
  | some b => exact .pure rfl

end FlowGraph.Relabeled

/-! ## Reservation and renaming -/

theorem Supply.lockstep_fresh : Lockstep (Fault.Relabeled r) Eq Eq Supply.fresh Supply.fresh := by
  intro s t hst
  subst hst
  unfold Supply.fresh
  split
  · exact .ok rfl rfl
  · exact .error rfl rfl

theorem Supply.lockstep_mint (n : Nat) :
    Lockstep (Fault.Relabeled r) Eq Eq (Supply.mint n) (Supply.mint n) := by
  induction n with
  | zero => exact .pure rfl
  | succ n ih =>
      refine Supply.lockstep_fresh.bind fun x y hxy => ih.bind fun xs ys hxys => .pure ?_
      rw [hxy, hxys]

theorem Supply.lockstep_reserve (n : Nat) :
    Lockstep (Fault.Relabeled r) Eq Eq (Supply.reserve n) (Supply.reserve n) := by
  unfold Supply.reserve
  split
  · exact Supply.lockstep_mint n
  · exact .throw rfl

theorem Block.assignmentCount_mapOffsets (b : Block τ) :
    (b.mapOffsets r).assignmentCount = b.assignmentCount := by
  have hsame : Instruction.isAssignment ∘ Instruction.mapOffsets r =
      Instruction.isAssignment (τ := τ) := by
    funext i
    simp [Instruction.isAssignment]
  rw [assignmentCount, mapOffsets, Array.countP_map, hsame, assignmentCount]

theorem FlowGraph.Relabeled.reserve {g g' : FlowGraph τ} (h : g.Relabeled r g') (ns : List Node)
    (reserved : Array (List Local)) :
    Lockstep (Fault.Relabeled r) Eq Eq (g.reserve ns reserved) (g'.reserve ns reserved) := by
  induction ns generalizing reserved with
  | nil => exact .pure rfl
  | cons n ns ih =>
      refine (h.blockOf _ n).bind fun b b' hb => ?_
      subst hb
      rw [Block.assignmentCount_mapOffsets]
      refine (Supply.lockstep_reserve _).bind fun ids ids' hids => ?_
      subst hids
      refine (lockstep_withEntry (E := Fault.Relabeled r) (A := Eq) rfl rfl rfl).bind
        fun table table' htable => ?_
      subst htable
      exact ih _

/-- The walk down a block with the offsets of its instructions replaced. -/
def Renamed.mapOffsets (r : Offset → Offset) (w : Renamed τ) : Renamed τ :=
  { w with instructions := w.instructions.map (Instruction.mapOffsets r) }

/-- Renaming reads operands and destinations only. -/
theorem renameFrom_mapOffsets (s : Scope) (ids : List Local) (is : List (Instruction τ)) :
    renameFrom s ids (is.map (Instruction.mapOffsets r)) = (renameFrom s ids is).mapOffsets r := by
  induction is generalizing s ids with
  | nil => rfl
  | cons i is ih =>
      obtain ⟨offset, tag, operands, action⟩ := i
      rw [List.map_cons]
      cases action with
      | assign x =>
          cases ids with
          | nil => rfl
          | cons id ids => exact congrArg (Renamed.consDefinition _ id x) (ih _ _)
      | effect => exact congrArg (Renamed.cons _) (ih _ _)
      | branch c t => exact congrArg (Renamed.cons _) (ih _ _)

theorem Block.lockstep_rename (ids : List Local) :
    Lockstep (Fault.Relabeled r) (fun b b' : Block τ => b' = b.mapOffsets r) Eq (Block.rename ids)
      (Block.rename ids) := by
  intro b b' hb
  subst hb
  have hwalk := renameFrom_mapOffsets (r := r) {} ids b.instructions.toList
  rw [← Array.toList_map] at hwalk
  unfold Block.rename
  simp only [Block.mapOffsets, hwalk, Renamed.mapOffsets]
  cases (renameFrom {} ids b.instructions.toList).leftOver with
  | none => exact .error rfl (by simp)
  | some left =>
      cases left with
      | nil => exact .ok rfl (by simp [Block.setBorders])
      | cons _ _ => exact .error rfl (by simp)

/-- **Renaming all blocks goes in lockstep.** -/
theorem FlowGraph.lockstep_renameAlong (reserved : Array (List Local)) (ns : List Node)
    (definitions : Array (List (Local × Local))) :
    Lockstep (Fault.Relabeled r) (FlowGraph.Relabeled (τ := τ) r) Eq
      (renameAlong reserved ns definitions) (renameAlong reserved ns definitions) := by
  induction ns generalizing definitions with
  | nil => exact .pure rfl
  | cons n ns ih =>
      have hids : Option.Rel Eq reserved[n]? reserved[n]? := by
        cases reserved[n]? with
        | none => exact .none
        | some ids => exact .some rfl
      refine Lockstep.get.bind fun g g' hg =>
        (lockstep_entryAt (E := Fault.Relabeled r) rfl (hg.rel_block? n)).bind fun b b' hb =>
        (lockstep_entryAt (E := Fault.Relabeled r) rfl hids).bind fun ids ids' heq => ?_
      subst heq
      have hpair := Block.lockstep_rename (r := r) ids hb
      generalize Block.rename ids b = x at hpair ⊢
      generalize Block.rename ids b' = y at hpair ⊢
      cases hpair with
      | ok hds hb =>
          subst hds
          subst hb
          refine (Lockstep.set (hg.setBlock n _)).bind fun _ _ _ =>
            (lockstep_withEntry (E := Fault.Relabeled r) (A := Eq) rfl rfl rfl).bind
              fun table table' htable => ?_
          subst htable
          exact ih _
      | error he hb =>
          subst hb
          exact (Lockstep.set (hg.setBlock n _)).bind fun _ _ _ => .throw he

/-! ## Search -/

theorem FlowGraph.Relabeled.contribution? {g g' : FlowGraph τ} (h : g.Relabeled r g') (x : Local)
    (n : Node) :
    g'.contribution? x n = (g.contribution? x n).map (Option.map (Contributor.mapOffsets r)) := by
  unfold FlowGraph.contribution?
  rw [h.block?]
  cases g.block? n with
  | none => rfl
  | some b =>
      simp only [Option.map_some, Option.map_map]
      rfl

/-- The search finds the same definitions. -/
theorem FlowGraph.Relabeled.reachingDefinitions {g g' : FlowGraph τ} (h : g.Relabeled r g')
    (n : Node) (x : Local) :
    Agree (Fault.Relabeled r) (fun cs cs' => cs' = cs.map (Contributor.mapOffsets r))
      (g.reachingDefinitions n x) (g'.reachingDefinitions n x) :=
  FlowGraph.agree_reachingDefinitions (E := Fault.Relabeled r) rfl h.blockCount h.predecessors
    (h.contribution? x) n

/-! ## Emission -/

/-- The runs differ only in the offsets of their events and in their journals, and the second one
has received some `earlier` events. -/
structure Run.Relabeled (r : Offset → Offset) (earlier : Array (Event τ)) (u v : Run τ) : Prop where
  supply : v.supply = u.supply
  events : v.events = earlier ++ u.events.map (Event.mapOffsets r)
  stats : v.stats = u.stats

namespace Run

variable {earlier : Array (Event τ)}

theorem lockstep_report (e : Event τ) :
    Lockstep (Fault.Relabeled r) (Run.Relabeled r earlier) Eq (report e)
      (report (e.mapOffsets r)) := by
  intro u v h
  refine .ok rfl ⟨h.supply, ?_, h.stats⟩
  simp [h.events]

theorem lockstep_log (entry entry' : LogRecord) :
    Lockstep (Fault.Relabeled r) (Run.Relabeled r earlier) Eq (log entry) (log entry') :=
  fun _ _ h => .ok rfl ⟨h.supply, h.events, h.stats⟩

theorem lockstep_count (f : Stats → Stats) :
    Lockstep (Fault.Relabeled r) (Run.Relabeled r earlier) Eq (count f) (count f) := by
  intro u v h
  exact .ok rfl ⟨h.supply, h.events, congrArg f h.stats⟩

theorem lockstep_supplied {α : Type} {x y : EStateM Fault Supply α}
    (hxy : Lockstep (Fault.Relabeled r) Eq Eq x y) :
    Lockstep (Fault.Relabeled r) (Run.Relabeled r earlier) Eq (supplied x) (supplied y) := by
  intro u v h
  have hpair := hxy h.supply.symm
  unfold supplied
  generalize x u.supply = a at hpair ⊢
  generalize y v.supply = b at hpair ⊢
  cases hpair with
  | ok hab hs => exact .ok hab ⟨hs.symm, h.events, h.stats⟩
  | error he hs => exact .error he ⟨hs.symm, h.events, h.stats⟩

theorem lockstep_reportDefinitions (ds : List (Local × Local)) :
    Lockstep (Fault.Relabeled r) (Run.Relabeled r earlier) Eq (reportDefinitions ds)
      (reportDefinitions ds) := by
  induction ds with
  | nil => exact .pure rfl
  | cons d ds ih => exact (lockstep_report _).bind fun _ _ _ => ih

theorem lockstep_logAll (entries entries' : List LogRecord) :
    Lockstep (Fault.Relabeled r) (Run.Relabeled r earlier) Eq (logAll entries)
      (logAll entries') := by
  intro u v h
  rw [logAll_eq, logAll_eq]
  exact .ok rfl ⟨h.supply, h.events, h.stats⟩

section Block

variable {g g' : FlowGraph τ}

/-- **Renaming goes in lockstep, whatever the two schedules.** -/
theorem lockstep_renameBlocks (h : g.Relabeled r g') {p p' : Program τ}
    (hg : FlowGraph.ofProgram p = .ok g) (hg' : FlowGraph.ofProgram p' = .ok g')
    (schedule schedule' : Schedule) :
    Lockstep (Fault.Relabeled r) (Run.Relabeled r earlier) (FlowGraph.Relabeled r)
      (renameBlocks g schedule) (renameBlocks g' schedule') := by
  rw [renameBlocks_eq hg, renameBlocks_eq hg', h.order, h.blockCount]
  refine (lockstep_supplied (h.reserve _ _)).bind fun reserved _ heq => ?_
  subst heq
  -- the record about parallel renaming stays in the journal, so it may be in one run only
  have hnote : Lockstep (Fault.Relabeled r) (Run.Relabeled r earlier) Eq
      (noteParallel schedule.isParallel g.blockCount)
      (noteParallel schedule'.isParallel g.blockCount) := by
    intro u v huv
    cases schedule.isParallel <;> cases schedule'.isParallel <;>
      exact .ok rfl ⟨huv.supply, huv.events, huv.stats⟩
  refine hnote.bind fun _ _ _ => ?_
  have hpair := FlowGraph.lockstep_renameAlong reserved (List.range g.blockCount)
    (Array.replicate g.blockCount []) h
  generalize FlowGraph.renameAlong reserved _ _ g = x at hpair ⊢
  generalize FlowGraph.renameAlong reserved _ _ g' = y at hpair ⊢
  cases hpair with
  | ok hds hg =>
      subst hds
      exact (lockstep_reportDefinitions _).bind fun _ _ _ => (lockstep_log _ _).bind fun _ _ _ =>
        (lockstep_count _).bind fun _ _ _ => .pure hg
  | error he _ => exact .throw he

variable (n : Node) (b : Block τ)

theorem lockstep_resolveImport (h : g.Relabeled r g') (offset : Offset) (x : Local) :
    Lockstep (Fault.Relabeled r) (Run.Relabeled r earlier) Eq (resolveImport g n offset x)
      (resolveImport g' n (r offset) x) := by
  refine (Lockstep.ofExcept (h.reachingDefinitions n x)).bind fun cs cs' hcs => ?_
  subst hcs
  match cs with
  | [] => exact (lockstep_count _).bind fun _ _ _ => .pure rfl
  | [c] => exact .pure rfl
  | c :: d :: cs =>
      refine (lockstep_supplied Supply.lockstep_fresh).bind fun result _ heq => ?_
      subst heq
      exact (lockstep_report (.unalias result x)).bind fun _ _ _ =>
        (lockstep_log _ _).bind fun _ _ _ =>
        (lockstep_report (.phi ⟨offset, result, x, c :: d :: cs⟩)).bind fun _ _ _ =>
        (lockstep_count _).bind fun _ _ _ => .pure rfl

theorem lockstep_noteUnresolved (offset : Offset) (x y : Local) :
    Lockstep (Fault.Relabeled r) (Run.Relabeled r earlier) Eq (noteUnresolved b offset x y)
      (noteUnresolved (b.mapOffsets r) (r offset) x y) := by
  unfold noteUnresolved
  split
  · exact lockstep_log _ _
  · exact .pure rfl

theorem lockstep_resolveOperand (h : g.Relabeled r g') (offset : Offset) (resolved : LocalMap)
    (x : Local) :
    Lockstep (Fault.Relabeled r) (Run.Relabeled r earlier) Eq
      (resolveOperand g n b offset resolved x)
      (resolveOperand g' n (b.mapOffsets r) (r offset) resolved x) := by
  unfold resolveOperand
  rw [show (b.mapOffsets r).imports x = b.imports x from rfl]
  split
  · cases resolved[x]? with
    | some y => exact .pure rfl
    | none =>
        refine (lockstep_resolveImport n h offset x).bind fun y _ heq => ?_
        subst heq
        exact (lockstep_noteUnresolved b offset x y).bind fun _ _ _ => .pure rfl
  · exact .pure rfl

theorem lockstep_resolveOperands (h : g.Relabeled r g') (offset : Offset) (resolved : LocalMap)
    (xs : List Local) :
    Lockstep (Fault.Relabeled r) (Run.Relabeled r earlier) Eq
      (resolveOperands g n b offset resolved xs)
      (resolveOperands g' n (b.mapOffsets r) (r offset) resolved xs) := by
  induction xs generalizing resolved with
  | nil => exact .pure rfl
  | cons x xs ih =>
      refine (lockstep_resolveOperand n b h offset resolved x).bind fun y _ heq => ?_
      subst heq
      refine (ih _).bind fun ys _ heq => .pure ?_
      rw [heq]

theorem lockstep_emitInstructions (h : g.Relabeled r g') (resolved : LocalMap)
    (is : List (Instruction τ)) :
    Lockstep (Fault.Relabeled r) (Run.Relabeled r earlier) Eq (emitInstructions g n b resolved is)
      (emitInstructions g' n (b.mapOffsets r) resolved (is.map (Instruction.mapOffsets r))) := by
  induction is generalizing resolved with
  | nil => exact .pure rfl
  | cons i is ih =>
      rw [List.map_cons]
      refine (lockstep_resolveOperands n b h i.offset resolved i.operands).bind fun ys _ heq => ?_
      subst heq
      rw [i.kind_mapOffsets]
      exact (lockstep_count _).bind fun _ _ _ =>
        (lockstep_report (.instruction { i with operands := ys.1 })).bind fun _ _ _ => ih _

theorem lockstep_emitBlocks (h : g.Relabeled r g') (ns : List Node) :
    Lockstep (Fault.Relabeled r) (Run.Relabeled r earlier) Eq (emitBlocks g ns)
      (emitBlocks g' ns) := by
  induction ns with
  | nil => exact .pure rfl
  | cons n ns ih =>
      refine (h.blockOf _ n).bind fun b b' hb => ?_
      subst hb
      rw [show (b.mapOffsets r).instructions.toList =
        b.instructions.toList.map (Instruction.mapOffsets r) from Array.toList_map]
      exact (lockstep_emitInstructions n b h ∅ _).bind fun _ _ _ => ih

end Block

/-! ## The whole conversion -/

variable {config config' : Config} {g g' : FlowGraph τ}

theorem lockstep_checkDangling (hreject : config'.rejectDangling = config.rejectDangling)
    (h : g.Relabeled r g') :
    Lockstep (Fault.Relabeled r) (Run.Relabeled r earlier) Eq (checkDangling config g)
      (checkDangling config' g') := by
  unfold checkDangling
  rw [hreject, h.dangling, Array.getElem?_map]
  cases config.rejectDangling with
  | false => exact .pure rfl
  | true =>
      cases g.dangling[0]? with
      | none => exact .pure rfl
      | some _ => exact .throw rfl

theorem lockstep_convertProgram (hreject : config'.rejectDangling = config.rejectDangling)
    (schedule schedule' : Schedule) {p : Program τ} (hr : Set.InjOn r p.offsets) :
    Lockstep (Fault.Relabeled r) (Run.Relabeled r earlier) Eq (convertProgram config schedule p)
      (convertProgram config' schedule' (p.mapOffsets r)) := by
  refine (Lockstep.ofExcept (FlowGraph.ofProgram_mapOffsets hr).answers).bind fun g g' hgraph => ?_
  obtain ⟨hg, hbuilt, hbuilt'⟩ := hgraph
  refine (lockstep_logAll _ _).bind fun _ _ _ =>
    (lockstep_checkDangling hreject hg).bind fun _ _ _ => ?_
  have hcounts : (fun s : Stats => { s with
      blocks := g'.blockCount
      reachedBlocks := g'.reachedCount
      danglingTargets := g'.dangling.size }) = fun s => { s with
      blocks := g.blockCount
      reachedBlocks := g.reachedCount
      danglingTargets := g.dangling.size } := by
    funext s
    rw [hg.blockCount, hg.dangling, Array.size_map, FlowGraph.reachedCount, hg.order]
    rfl
  rw [hcounts]
  refine (lockstep_count _).bind fun _ _ _ =>
    (lockstep_renameBlocks hg hbuilt hbuilt' _ _).bind fun k k' hk => ?_
  rw [hk.order]
  refine (lockstep_emitBlocks hk _).bind fun _ _ _ => Lockstep.get.bind fun u v huv => ?_
  exact (lockstep_log _ _).bind fun _ _ _ => .pure huv.stats.symm

end Run

theorem Program.locals_mapOffsets (p : Program τ) : (p.mapOffsets r).locals = p.locals := by
  have hlocals : ∀ i : Instruction τ, (i.mapOffsets r).locals = i.locals := by
    intro i
    rw [Instruction.locals, Instruction.destination?_mapOffsets]
    rfl
  rw [(p.mapOffsets r).locals_eq, p.locals_eq, mapOffsets, instructions_ofList, List.toList_toArray,
    List.flatMap_map]
  simp only [hlocals]

/-- **Two conversions whose programs differ by a map of offsets** end alike and report alike, up to
the map.  They need to agree only on whether dangling branches are refused. -/
theorem convert_relabeled {config config' : Config}
    (hreject : config'.rejectDangling = config.rejectDangling) (schedule schedule' : Schedule)
    {p : Program τ} (hr : Set.InjOn r p.offsets) :
    (convert config' schedule' (p.mapOffsets r)).outcome =
        (convert config schedule p).outcome.mapError (Fault.mapOffsets r) ∧
      (convert config' schedule' (p.mapOffsets r)).events =
        (convert config schedule p).events.map (Event.mapOffsets r) := by
  have hstart : Run.Relabeled (τ := τ) r #[] { supply := .ofUsed p.locals }
      { supply := .ofUsed (p.mapOffsets r).locals } :=
    ⟨by rw [p.locals_mapOffsets], by simp, rfl⟩
  have hpair := Run.lockstep_convertProgram hreject schedule schedule' hr hstart
  unfold convert
  generalize Run.convertProgram config schedule p _ = x at hpair ⊢
  generalize Run.convertProgram config' schedule' (p.mapOffsets r) _ = y at hpair ⊢
  cases hpair with
  | ok hstats hrun =>
      subst hstats
      exact ⟨rfl, by simpa using hrun.events⟩
  | error he hrun =>
      subst he
      exact ⟨rfl, by simpa using hrun.events⟩

/-- The schedule and the threshold change neither outcome nor events: blocks that are renamed in
whatever order are as they are when renamed one after the other, and what follows is the same. -/
theorem convert_outcome_agree (config config' : Config) (schedule schedule' : Schedule)
    (p : Program τ) (hreject : config'.rejectDangling = config.rejectDangling) :
    (convert config' schedule' p).outcome = (convert config schedule p).outcome ∧
      (convert config' schedule' p).events = (convert config schedule p).events := by
  obtain ⟨houtcome, hevents⟩ :=
    convert_relabeled hreject schedule schedule' (Set.injOn_id p.offsets)
  rw [p.mapOffsets_id] at houtcome hevents
  constructor
  · rw [houtcome]
    cases (convert config schedule p).outcome with
    | ok stats => rfl
    | error e => exact congrArg Except.error e.mapOffsets_id
  · rw [hevents, show Event.mapOffsets (τ := τ) id = id from funext Event.mapOffsets_id,
      Array.map_id]

end SingleAssignment
