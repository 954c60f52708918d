import SingleAssignment.Proofs.Convert.Emission
import SingleAssignment.Proofs.Flow.Scheduling

/-!
# The events of a conversion

A successful conversion reports what the new destinations stand for, and then the emissions of the
renamed blocks.  Every local it hands out comes from one supply that avoids the locals of the
program.

* `Run.renameBlocks_eq` — **what renaming does is what it does in order, whatever the schedule.**
* `Run.renameBlocks_ok` — the flow graph is renamed, and each destination is reported once.
* `Naming` — the renamed flow graph and its definitions.
* `Stream` — a naming and the emissions behind a list of events.
* `convert_ok` — **every successful conversion is of this form.**
-/

namespace SingleAssignment

variable {τ : Type}

namespace Run

theorem reportDefinitions_eq (ds : List (Local × Local)) (u : Run τ) :
    reportDefinitions ds u =
      .ok () { u with events := u.events ++ (ds.map fun d => .unalias d.1 d.2).toArray } := by
  induction ds generalizing u with
  | nil => simp [reportDefinitions, pure, EStateM.pure]
  | cons d ds ih =>
      rw [reportDefinitions, Outcome.run_bind_ok (x := report _) (s := u) rfl, ih]
      simp

theorem logAll_eq (entries : List LogRecord) (u : Run τ) :
    logAll entries u = .ok () { u with journal := u.journal ++ entries.toArray } := by
  induction entries generalizing u with
  | nil => simp [logAll, pure, EStateM.pure]
  | cons entry entries ih =>
      rw [logAll, Outcome.run_bind_ok (x := log entry) (s := u) rfl, ih]
      simp

theorem checkDangling_ok {config : Config} {g : FlowGraph τ} {r r' : Run τ} {u : Unit}
    (h : checkDangling config g r = .ok u r') : r' = r := by
  unfold checkDangling at h
  generalize config.rejectDangling = rejects, g.dangling[0]? = first at h
  match rejects, first, h with
  | true, some _, h => cases h
  | true, none, h => exact (Outcome.of_run_pure h).2.symm
  | false, _, h => exact (Outcome.of_run_pure h).2.symm

/-- Note that blocks are renamed in parallel, if they are. -/
def noteParallel (parallel : Bool) (blocks : Nat) : RunM τ Unit :=
  if parallel then log (.renamingInParallel blocks) else return

/-- The second half of renaming: report the definitions of the blocks in order. -/
def reportRenaming (order : List Node) :
    EStateM.Result Fault (FlowGraph τ) (Array (List (Local × Local))) → RunM τ (FlowGraph τ)
  | .error e _ => throw e
  | .ok definitions g => do
      let all := order.flatMap (definitions.getD · [])
      reportDefinitions all
      log (.renamed all.length g.reachedCount)
      count fun s => { s with definitions := all.length }
      return g

theorem reportRenamed_eq {definitions : Array (List (Local × Local))} {ns : List Node}
    (h : ∀ n ∈ ns, n < definitions.size) (u : Run τ) :
    reportRenamed definitions ns u =
      .ok (ns.flatMap (definitions.getD · [])).length
        { u with
          events := u.events ++
            ((ns.flatMap (definitions.getD · [])).map fun d => .unalias d.1 d.2).toArray } := by
  induction ns generalizing u with
  | nil => simp [reportRenamed, pure, EStateM.pure]
  | cons n ns ih =>
      have hn := getElem?_eq_getD (h n List.mem_cons_self)
      rw [reportRenamed, Outcome.run_bind_ok (entryAt_eq_ok hn u),
        Outcome.run_bind_ok (reportDefinitions_eq _ u),
        Outcome.run_bind_ok (ih (fun m hm => h m (List.mem_cons_of_mem n hm)) _)]
      simp [pure, EStateM.pure]

/-- **The schedule shows in the journal only.**  Whatever the order in which the blocks are renamed,
it is as if they were renamed one after the other. -/
theorem renameBlocks_eq {p : Program τ} {g : FlowGraph τ} (hg : FlowGraph.ofProgram p = .ok g)
    (schedule : Schedule) :
    renameBlocks g schedule = (do
      let reserved ← supplied (g.reserve g.order.toList (Array.replicate g.blockCount []))
      noteParallel schedule.isParallel g.blockCount
      reportRenaming g.order.toList (FlowGraph.renameAlong reserved (List.range g.blockCount)
        (Array.replicate g.blockCount []) g)) := by
  funext r
  unfold renameBlocks
  cases hsupplied : supplied (g.reserve g.order.toList (Array.replicate g.blockCount [])) r with
  | error e r₁ => rw [Outcome.run_bind_error hsupplied, Outcome.run_bind_error hsupplied]
  | ok reserved r₁ =>
      obtain ⟨s, hreserve, -⟩ := supplied_ok hsupplied
      obtain ⟨definitions, g', hsize, hone, -⟩ := FlowGraph.renaming_unordered hg hreserve
      obtain ⟨-, nodes, rfl⟩ := FlowGraph.renameAlong_frame (hone _ (.refl _))
      have hbound : ∀ n ∈ g.order.toList, n < definitions.size := fun n hn =>
        hsize ▸ (FlowGraph.build_laid hg).lt_blockCount hn
      rw [Outcome.run_bind_ok hsupplied, Outcome.run_bind_ok hsupplied,
        FlowGraph.renamePaired_eq hg hreserve schedule.order_perm, hone _ (.refl _)]
      have hreport : (do
          let total ← reportRenamed definitions g.order.toList
          log (.renamed total (g.withBlocks nodes).reachedCount)
          count fun s => { s with definitions := total }
          return g.withBlocks nodes : RunM τ (FlowGraph τ)) =
            reportRenaming g.order.toList (.ok definitions (g.withBlocks nodes)) := by
        funext u
        rw [reportRenaming, Outcome.run_bind_ok (reportRenamed_eq hbound u),
          Outcome.run_bind_ok (reportDefinitions_eq _ u)]
      rw [← hreport]
      cases schedule.isParallel <;> rfl

/-- The records of renaming. -/
def renamingRecords (parallel : Bool) (blocks definitions reached : Nat) : Array LogRecord :=
  (if parallel then #[.renamingInParallel blocks] else #[]).push (.renamed definitions reached)

/-- What renaming does: it reserves locals for all blocks, renames them, and reports the
definitions. -/
theorem renameBlocks_steps {p : Program τ} {g g' : FlowGraph τ} {schedule : Schedule} {r r' : Run τ}
    (hg : FlowGraph.ofProgram p = .ok g) (h : renameBlocks g schedule r = .ok g' r') :
    ∃ reserved definitions s ds,
      g.reserve g.order.toList (Array.replicate g.blockCount []) r.supply = .ok reserved s ∧
      FlowGraph.renameAlong reserved (List.range g.blockCount)
        (Array.replicate g.blockCount []) g = .ok definitions g' ∧
      ds = g.order.toList.flatMap (definitions.getD · []) ∧
      r' = {
        supply := s
        events := r.events ++ (ds.map fun d => Event.unalias d.1 d.2).toArray
        journal := r.journal ++
          renamingRecords schedule.isParallel g.blockCount ds.length g'.reachedCount
        stats := { r.stats with definitions := ds.length } } := by
  rw [renameBlocks_eq hg] at h
  obtain ⟨reserved, r₁, hsupplied, h₁⟩ := Outcome.of_run_bind h
  obtain ⟨s, hreserve, rfl⟩ := supplied_ok hsupplied
  obtain ⟨_, r₂, hnote, h₁⟩ := Outcome.of_run_bind h₁
  cases halong : FlowGraph.renameAlong reserved (List.range g.blockCount)
      (Array.replicate g.blockCount []) g with
  | error e k =>
      rw [halong] at h₁
      cases h₁
  | ok definitions k =>
      rw [halong, reportRenaming, Outcome.run_bind_ok (reportDefinitions_eq _ _)] at h₁
      cases h₁
      refine ⟨reserved, definitions, s, _, hreserve, halong, rfl, ?_⟩
      rw [renamingRecords, Array.append_push]
      generalize schedule.isParallel = parallel at hnote
      cases parallel with
      | true =>
          cases hnote
          rfl
      | false =>
          cases hnote
          rfl

/-- **Renaming gives each assignment a minted local and reports it.** -/
theorem renameBlocks_ok {p : Program τ} {g g' : FlowGraph τ} {schedule : Schedule} {r r' : Run τ}
    (hg : FlowGraph.ofProgram p = .ok g) (h : renameBlocks g schedule r = .ok g' r') :
    g.RenamedTo g' ∧ ∃ ds : List (Local × Local),
      ds.map (·.1) = destinations (allInstructions g'.blocksInOrder) ∧
      ds.map (·.2) = destinations p.instructions.toList ∧
      r.Advances (ds.map fun d => .unalias d.1 d.2) (ds.map (·.1)) r' := by
  have hlaid := FlowGraph.build_laid hg
  obtain ⟨reserved, definitions, s, ds, hreserve, halong, rfl, rfl⟩ := renameBlocks_steps hg h
  have hbound : ∀ n ∈ g.order.toList, n < g.blockCount := fun _ hn => hlaid.lt_blockCount hn
  obtain ⟨hmints, -⟩ := FlowGraph.reserve_ok hreserve hlaid.nodup_order
  have hrenamed := FlowGraph.renameAlong_ok halong List.nodup_range
  have hnode : ∀ n ∈ g.order.toList, ∃ b b', g.block? n = some b ∧ g'.block? n = some b' ∧
      destinations b'.instructions.toList = reserved.getD n [] ∧
      (definitions.getD n []).map (·.1) = reserved.getD n [] ∧
      (definitions.getD n []).map (·.2) = destinations b.instructions.toList := by
    intro n hn
    obtain ⟨b, b', hb, hb', hr⟩ := hrenamed.listed n (List.mem_range.2 (hbound n hn))
    exact ⟨b, b', hb, hb', (Block.rename_ok hr).2⟩
  have hids : g.order.toList.flatMap (fun n => (definitions.getD n []).map (·.1)) =
      g.order.toList.flatMap (reserved.getD · []) := by
    refine List.flatMap_congr fun n hn => ?_
    obtain ⟨_, _, _, _, _, hfst, _⟩ := hnode n hn
    exact hfst
  refine ⟨hrenamed.renamedTo, g.order.toList.flatMap (definitions.getD · []), ?_, ?_, by simp, ?_⟩
  · rw [List.map_flatMap, hids, ← hrenamed.order, FlowGraph.destinations_blocksInOrder]
    intro n hn
    rw [hrenamed.order] at hn
    obtain ⟨b, b', _, hb', hdest, _⟩ := hnode n hn
    exact ⟨b', hb', hdest⟩
  · have hall : allInstructions g.blocksInOrder = p.instructions.toList := hlaid.contents
    rw [List.map_flatMap, ← hall, FlowGraph.destinations_blocksInOrder]
    intro n hn
    obtain ⟨b, b', hb, _, _, _, hsnd⟩ := hnode n hn
    exact ⟨b, hb, hsnd.symm⟩
  · rw [List.map_flatMap, hids]
    exact hmints

end Run

/-! ## The whole conversion -/

/-- The flow graph `g` of the program is renamed to `g'` with the definitions `ds`, whose new names
the program does not mention. -/
structure Naming (p : Program τ) (g g' : FlowGraph τ) (ds : List (Local × Local)) : Prop where
  built : FlowGraph.ofProgram p = .ok g
  renamed : g.RenamedTo g'
  names : ds.map (·.1) = destinations (allInstructions g'.blocksInOrder)
  origins : ds.map (·.2) = destinations p.instructions.toList
  unmentioned : ∀ x ∈ ds.map (·.1), x ∉ p.locals

/-- How the events of a successful conversion come about: the flow graph `g` is renamed to `g'` with
the definitions `ds`, and each block of `g'` has its part of the emissions. -/
structure Stream (p : Program τ) (g g' : FlowGraph τ) (ds : List (Local × Local))
    (parts : List (List (Emission τ))) (events : List (Event τ)) : Prop
    extends Naming p g g' ds where
  emitted : List.Forall₂ (fun n es => ∃ b, g'.block? n = some b ∧
    EmitsAll g' n b ∅ b.instructions.toList es) g'.order.toList parts
  events : events = ds.map (fun d => .unalias d.1 d.2) ++ parts.flatten.flatMap Emission.events
  minted : ∃ s, (Supply.ofUsed p.locals).Mints
    (ds.map (·.1) ++ parts.flatten.flatMap Emission.results) s

theorem Naming.laid {p : Program τ} {g g' : FlowGraph τ} {ds : List (Local × Local)}
    (h : Naming p g g' ds) : g.Laid p.labels p.instructions.toList :=
  FlowGraph.build_laid h.built

/-- What is counted of a flow graph. -/
def FlowGraph.counts (g : FlowGraph τ) : Stats where
  blocks := g.blockCount
  reachedBlocks := g.reachedCount
  danglingTargets := g.dangling.size

/-- The run of a conversion with a flow graph built and nothing renamed. -/
def Run.onceBuilt (p : Program τ) (g : FlowGraph τ) : Run τ where
  supply := .ofUsed p.locals
  journal := g.records.toArray
  stats := g.counts

theorem convert_eq_ok {config : Config} {schedule : Schedule} {p : Program τ} {stats : Stats}
    (h : (convert config schedule p).outcome = .ok stats) :
    ∃ r, Run.convertProgram config schedule p { supply := .ofUsed p.locals } = .ok stats r ∧
      convert config schedule p = ⟨.ok stats, r.events, r.journal⟩ := by
  unfold convert at h ⊢
  cases hrun : Run.convertProgram config schedule p { supply := .ofUsed p.locals } with
  | error e r =>
      rw [hrun] at h
      cases h
  | ok stats' r =>
      rw [hrun] at h
      cases h
      exact ⟨r, rfl, rfl⟩

/-- What a successful conversion does: it builds the flow graph, renames it, and emits its blocks in
order. -/
theorem convert_steps {config : Config} {schedule : Schedule} {p : Program τ} {stats : Stats}
    (h : (convert config schedule p).outcome = .ok stats) :
    ∃ g g' r r', FlowGraph.ofProgram p = .ok g ∧
      Run.renameBlocks g (config.scheduleFor schedule g.reachedCount) (Run.onceBuilt p g) =
        .ok g' r ∧
      Run.emitBlocks g' g'.order.toList r = .ok () r' ∧ r'.stats = stats ∧
      (convert config schedule p).events = r'.events ∧
      (convert config schedule p).journal = r'.journal.push (.finished stats) := by
  obtain ⟨r, hrun, hconvert⟩ := convert_eq_ok h
  obtain ⟨g, r₀, hof, h₁⟩ := Outcome.of_run_bind hrun
  obtain ⟨hbuild, rfl⟩ := Run.ofExcept_ok hof
  rw [Outcome.run_bind_ok (Run.logAll_eq _ _)] at h₁
  obtain ⟨_, r₁, hcheck, h₁⟩ := Outcome.of_run_bind h₁
  obtain rfl := Run.checkDangling_ok hcheck
  obtain ⟨_, r₂, hcount, h₁⟩ := Outcome.of_run_bind h₁
  cases hcount
  obtain ⟨g', r₃, hrename, h₁⟩ := Outcome.of_run_bind h₁
  obtain ⟨_, r₄, hemit, h₁⟩ := Outcome.of_run_bind h₁
  cases h₁
  refine ⟨g, g', r₃, r₄, hbuild, ?_, hemit, rfl, congrArg Conversion.events hconvert,
    congrArg Conversion.journal hconvert⟩
  simpa [Run.onceBuilt, FlowGraph.counts] using hrename

/-- **Every successful conversion is of this form.** -/
theorem convert_ok {config : Config} {schedule : Schedule} {p : Program τ} {stats : Stats}
    (h : (convert config schedule p).outcome = .ok stats) :
    ∃ g g' ds parts, Stream p g g' ds parts (convert config schedule p).events.toList := by
  obtain ⟨g, g', r, r', hbuild, hrename, hemit, -, hevents, -⟩ := convert_steps h
  obtain ⟨hto, ds, hnames, horigins, hadv⟩ := Run.renameBlocks_ok hbuild hrename
  obtain ⟨parts, hparts, hadv'⟩ := Run.emitBlocks_ok hemit
  have hall := hadv.trans hadv'
  rw [hevents]
  refine ⟨g, g', ds, parts, ⟨hbuild, hto, hnames, horigins, fun x hx => ?_⟩, hparts,
    by simpa [Run.onceBuilt] using hall.events, _, hall.supply⟩
  exact hall.supply.not_mem (List.mem_append_left _ hx)

end SingleAssignment
