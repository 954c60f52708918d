import SingleAssignment.Proofs.Classification
import SingleAssignment.Proofs.Convert.Record
import SingleAssignment.Proofs.Convert.Relabeling
import SingleAssignment.Proofs.Flow.Scheduling

/-!
# Independence of the schedule

The result of a conversion does not depend on how its blocks are renamed.  Once all ids are
reserved, every order of the blocks leads to the same flow graph, and it is the flow graph of a run
that reserves and renames block by block (`FlowGraph.renaming_unordered`).  So threads may come to
the blocks in whatever order: a schedule shows in the journal only (`Run.renameBlocks_eq`), and the
one choice of a configuration that matters is whether dangling branches are refused.

* `convert_accepting` — without a dangling branch it does not matter whether they are refused.
* `convert_independent_of_schedule` — **renaming is independent of scheduling.**
-/

namespace SingleAssignment

variable {τ : Type}

/-! ## Schedules and configurations -/

section Convert

variable {config : Config} {p : Program τ}

theorem Run.convertProgram_accepting (schedule : Schedule) (h : ¬ p.Dangling config) :
    convertProgram config schedule p =
      convertProgram { config with rejectDangling := false } schedule p := by
  funext r
  unfold convertProgram
  cases hg : FlowGraph.ofProgram p with
  | error e => rfl
  | ok g =>
      have hlaid := FlowGraph.build_laid hg
      have hcheck : checkDangling config g =
          checkDangling { config with rejectDangling := false } g := by
        funext r
        rw [checkDangling_eq_ok hlaid h, checkDangling_eq_ok hlaid fun h => Bool.false_ne_true h.1]
      rw [Outcome.run_bind_ok (ofExcept_eq_ok rfl r), Outcome.run_bind_ok (ofExcept_eq_ok rfl r),
        hcheck]
      rfl

/-- Where nothing is refused for a dangling branch, such branches might as well be accepted. -/
theorem convert_accepting (schedule : Schedule) (h : ¬ p.Dangling config) :
    convert config schedule p = convert { config with rejectDangling := false } schedule p := by
  unfold convert
  rw [Run.convertProgram_accepting schedule h]

/-- A program with a dangling branch is refused, and nothing is reported of it. -/
theorem convert_rejecting (schedule : Schedule) (h : p.Dangling config) :
    ∃ e, p.Refused config e ∧ (convert config schedule p).outcome = .error e ∧
      (convert config schedule p).events = #[] := by
  have hno : ¬ (p.Layable ∧ ¬ p.Dangling config ∧ p.required ≤ p.available) := fun hok => hok.2.1 h
  obtain ⟨e, he⟩ := Program.exists_refused hno
  exact ⟨e, he, convert_of_refused he, convert_events_eq_empty (.inr (.inl h))⟩

theorem not_dangling_of_ok {schedule : Schedule} {stats : Stats}
    (h : (convert config schedule p).outcome = .ok stats) : ¬ p.Dangling config := by
  intro hdangling
  obtain ⟨e, -, herror, -⟩ := convert_rejecting schedule hdangling
  rw [h] at herror
  cases herror

end Convert

/-- **Renaming is independent of scheduling.**  Let a supply have a local for each assignment of a
program.  Reserving in program order and then renaming all blocks of the flow graph, in any order and
so under any schedule, ends with the same blocks, the same definitions for each node and the same
supply as reserving and renaming one entered block at a time; the blocks never entered define
nothing.

So two conversions of a program that succeed, under whatever configurations and schedules, have the
same statistics and the same events.  Refusing dangling branches changes nothing at all in the
conversion of a program without one; a program with one is refused, and nothing is reported. -/
theorem convert_independent_of_schedule (p : Program τ) :
    (∀ (g : FlowGraph τ) (s s' : Supply) (ids : List Local), FlowGraph.ofProgram p = .ok g →
      Supply.reserve p.assignmentCount s = .ok ids s' →
      ∃ reserved definitions g',
        g.reserve g.order.toList (Array.replicate g.blockCount []) s = .ok reserved s' ∧
        reserved.size = g.blockCount ∧ definitions.size = g.blockCount ∧
        (∀ ns : List Node, ns.Perm (List.range g.blockCount) →
          FlowGraph.renameAlong reserved ns (Array.replicate g.blockCount []) g =
            .ok definitions g') ∧
        (∀ schedule : Schedule,
          FlowGraph.renamePaired schedule.order reserved g = .ok definitions g') ∧
        FlowGraph.renameEach g.order.toList (s, g) =
          .ok (g.order.toList.map (definitions.getD · [])) (s', g') ∧
        ∀ n ∉ g.order.toList, definitions.getD n [] = []) ∧
    (∀ (config config' : Config) (schedule schedule' : Schedule) (stats stats' : Stats),
      (convert config schedule p).outcome = .ok stats →
      (convert config' schedule' p).outcome = .ok stats' →
      stats = stats' ∧ (convert config schedule p).events = (convert config' schedule' p).events) ∧
    ∀ (config : Config) (schedule : Schedule),
      ((∀ k, ¬ p.DanglesAt k) →
        convert { config with rejectDangling := true } schedule p =
          convert { config with rejectDangling := false } schedule p) ∧
      ((∃ k, p.DanglesAt k) →
        ∃ e, p.Refused { config with rejectDangling := true } e ∧
          (convert { config with rejectDangling := true } schedule p).outcome = .error e ∧
          (convert { config with rejectDangling := true } schedule p).events = #[]) := by
  refine ⟨fun g s s' ids hg hids => ?_, ?_, ?_⟩
  · obtain ⟨reserved, hreserve⟩ := (FlowGraph.build_laid hg).exists_reserve hids
    obtain ⟨definitions, g', hsize, hone, heach⟩ := FlowGraph.renaming_unordered hg hreserve
    refine ⟨reserved, definitions, g', hreserve, ?_, hsize, hone, fun schedule => ?_, heach⟩
    · rw [FlowGraph.size_reserved hreserve, Array.size_replicate]
    · rw [FlowGraph.renamePaired_eq hg hreserve schedule.order_perm, hone _ (.refl _)]
  · intro config config' schedule schedule' stats stats' h h'
    -- both conversions might as well accept dangling branches, and then their configurations agree
    have hconfig := convert_accepting schedule (not_dangling_of_ok h)
    have hconfig' := convert_accepting schedule' (not_dangling_of_ok h')
    rw [hconfig] at h ⊢
    rw [hconfig'] at h' ⊢
    obtain ⟨houtcome, hevents⟩ := convert_outcome_agree { config with rejectDangling := false }
      { config' with rejectDangling := false } schedule schedule' p rfl
    rw [h, h'] at houtcome
    injection houtcome with hstats
    exact ⟨hstats.symm, hevents.symm⟩
  · intro config schedule
    refine ⟨fun hnone => ?_, fun hsome => convert_rejecting schedule ⟨rfl, hsome⟩⟩
    rw [convert_accepting schedule fun h => h.2.elim hnone]

/-- A branch to an offset without an instruction, between two blocks that are entered. -/
def strayBranch : Program Unit :=
  .ofList [⟨0, (), [], .assign ⟨5⟩⟩, ⟨1, (), [⟨5⟩], .branch true 9⟩, ⟨2, (), [⟨5⟩], .assign ⟨5⟩⟩]

theorem strayBranch_dangles : strayBranch.DanglesAt 1 := by
  refine ⟨⟨1, (), [⟨5⟩], .branch true 9⟩, true, 9, rfl, rfl, fun q j hj => ?_⟩
  have hmem : j ∈ strayBranch.instructions := Array.mem_of_getElem? hj
  simp only [strayBranch, Program.instructions_ofList, List.mem_toArray, List.mem_cons,
    List.not_mem_nil, or_false] at hmem
  rcases hmem with rfl | rfl | rfl <;> decide

theorem convert_strayBranch :
    (convert {} .sequential strayBranch).outcome = .ok
      { blocks := 3, reachedBlocks := 2, danglingTargets := 1, definitions := 2,
        assignments := 2, branches := 1 } := by
  cbv

/-- The blocks of a program with a stray branch can be renamed from last to first.  It is converted
by threads that come to the last block first as it is in sequence, unless dangling branches are
refused. -/
theorem strayBranch_independent_of_schedule :
    (∃ g reserved definitions g' s', FlowGraph.ofProgram strayBranch = .ok g ∧
      FlowGraph.renameAlong reserved (List.range g.blockCount).reverse
        (Array.replicate g.blockCount []) g = .ok definitions g' ∧
      FlowGraph.renameEach g.order.toList (.ofUsed ∅, g) =
        .ok (g.order.toList.map (definitions.getD · [])) (s', g')) ∧
    (convert {} .sequential strayBranch).events =
      (convert { parallelThreshold := 0 } (.parallel .backwards) strayBranch).events ∧
    (convert { rejectDangling := true } .sequential strayBranch).events = #[] := by
  obtain ⟨hrename, hconvert, hreject⟩ := convert_independent_of_schedule strayBranch
  refine ⟨?_, ?_, ?_⟩
  · have hids : Supply.reserve strayBranch.assignmentCount (.ofUsed ∅) =
        .ok [⟨1⟩, ⟨2⟩] ⟨((∅ : LocalSet).insert ⟨1⟩).insert ⟨2⟩, some 3⟩ := by
      cbv
    cases hg : FlowGraph.ofProgram strayBranch with
    | error e =>
        have herror : (convert {} .sequential strayBranch).outcome = .error e :=
          (convert_of_ofProgram_error hg).1
        rw [convert_strayBranch] at herror
        cases herror
    | ok g =>
        obtain ⟨reserved, definitions, g', -, -, -, halong, -, heach, -⟩ := hrename g _ _ _ hg hids
        exact ⟨g, reserved, definitions, g', _, rfl, halong _ (List.reverse_perm _), heach⟩
  · have hparallel :
        (convert { parallelThreshold := 0 } (.parallel .backwards) strayBranch).outcome = .ok
          { blocks := 3, reachedBlocks := 2, danglingTargets := 1, definitions := 2,
            assignments := 2, branches := 1 } := by
      cbv
    exact (hconvert {} { parallelThreshold := 0 } .sequential (.parallel .backwards) _ _
      convert_strayBranch hparallel).2
  · obtain ⟨e, -, -, hevents⟩ := (hreject {} .sequential).2 ⟨1, strayBranch_dangles⟩
    exact hevents

end SingleAssignment
