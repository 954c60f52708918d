import SingleAssignment.Proofs.Convert.Account

/-!
# Statistics and journal of a conversion

The statistics of a successful conversion, its events and its journal agree with each other, and
every number among them can be counted in the program.

* `Stats.AccountFor` — what each number counts.
* `convert_accounts` — **the statistics of a successful conversion account for it.**
-/

namespace SingleAssignment

variable {τ : Type}

/-! ## Records of the journal -/

namespace LogRecord

/-- The phi of a record that one is placed. -/
def phi? : LogRecord → Option Phi
  | .phiPlaced φ => some φ
  | _ => none

/-- Whether a record says that a read has no definition to refer to. -/
def isUnresolved : LogRecord → Bool
  | .unresolved _ _ _ => true
  | _ => false

/-- Whether a record is a warning. -/
def isWarning (entry : LogRecord) : Bool := entry.level == .warn

end LogRecord

/-- Only dangling branches are warned of. -/
theorem FlowGraph.countP_isWarning_records (g : FlowGraph τ) :
    g.records.countP LogRecord.isWarning = g.dangling.size := by
  rw [records, List.countP_append, List.countP_eq_length.2, List.length_map]
  · simp [LogRecord.isWarning, LogRecord.level]
  · intro entry hentry
    obtain ⟨bt, -, rfl⟩ := List.mem_map.1 hentry
    rfl

theorem Deed.filterMap_phi?_record? (deeds : List (Deed τ)) :
    (deeds.filterMap Deed.record?).filterMap LogRecord.phi? = deeds.filterMap Deed.phi? := by
  rw [List.filterMap_filterMap]
  refine List.filterMap_congr fun d _ => ?_
  cases d <;> rfl

theorem Deed.countP_isUnresolved_record? (deeds : List (Deed τ)) :
    (deeds.filterMap Deed.record?).countP LogRecord.isUnresolved = deeds.countP Deed.isLeft := by
  rw [List.countP_filterMap]
  refine List.countP_congr fun d _ => ?_
  cases d <;> simp [Deed.record?, Deed.isLeft, LogRecord.isUnresolved]

/-- Nothing that emission does is warned of. -/
theorem Deed.countP_isWarning_record? (deeds : List (Deed τ)) :
    (deeds.filterMap Deed.record?).countP LogRecord.isWarning = 0 := by
  rw [List.countP_eq_zero]
  intro entry hentry
  obtain ⟨d, -, hd⟩ := List.mem_filterMap.1 hentry
  cases d <;> cases hd <;> simp [LogRecord.isWarning, LogRecord.level]

namespace Account

variable {p : Program τ} {g : FlowGraph τ} {ds : List (Local × Local)} {deeds : List (Deed τ)}
  {stats : Stats} {c : Conversion τ}

/-- In front of and behind emission, dangling branches are warned of, and no record is about a phi
or a read. -/
theorem journal_counts (h : Account p g ds deeds stats c) :
    c.journal.toList.countP LogRecord.isWarning = g.dangling.size ∧
    c.journal.toList.filterMap LogRecord.phi? = c.recorded.phis ∧
    c.journal.toList.countP LogRecord.isUnresolved = deeds.countP Deed.isLeft := by
  obtain ⟨parallel, reached, hjournal⟩ := h.journal
  rw [hjournal, h.phis]
  simp only [List.countP_append, List.filterMap_append, g.countP_isWarning_records,
    Deed.filterMap_phi?_record?, Deed.countP_isUnresolved_record?,
    Deed.countP_isWarning_record?]
  cases parallel <;>
    simp [Run.renamingRecords, FlowGraph.records, LogRecord.isWarning, LogRecord.level,
      LogRecord.phi?, LogRecord.isUnresolved, List.filterMap_cons, Function.comp_def]

end Account

/-! ## Kinds of emitted instructions -/

/-- Conversion keeps the instructions of each kind. -/
theorem Converted.countP_kind {p : Program τ} {g : FlowGraph τ} {es : List (Emission τ)}
    {r : Recorder τ} (h : Converted p g es r) (kind : Kind) :
    r.instructions.countP (·.kind == kind) =
      p.instructions.toList.countP (·.kind == kind) := by
  have hkinds : r.instructions.map (·.kind) = p.instructions.toList.map (·.kind) := by
    rw [h.instructions, eq_comm, ← List.forall₂_eq_eq_eq, List.forall₂_map_left_iff,
      List.forall₂_map_right_iff]
    exact h.rendering.aligned.imp fun _ _ ha => ha.2.2.kind_eq.symm
  have hcounts := congrArg (List.countP (· == kind)) hkinds
  rw [List.countP_map, List.countP_map] at hcounts
  exact hcounts

theorem Instruction.isAssignment_eq (i : Instruction τ) :
    i.isAssignment = (i.kind == .assignment) := by
  unfold isAssignment destination? kind
  cases i.action <;> rfl

/-- Every instruction is of one kind. -/
theorem length_eq_countP_kinds (is : List (Instruction τ)) :
    is.length = is.countP (·.kind == .assignment) + is.countP (·.kind == .statement) +
      is.countP (·.kind == .branch) := by
  induction is with
  | nil => rfl
  | cons i is ih =>
      simp only [List.length_cons, List.countP_cons, ih]
      cases i.kind <;> simp <;> omega

/-! ## Accounts -/

/-- What the statistics of a conversion of `p` count, in the program and in what the conversion
leaves behind. -/
structure Stats.AccountFor (stats : Stats) (p : Program τ) (c : Conversion τ) : Prop where
  /-- What is counted in the program is finite; positions are anyway. -/
  finite : p.strayTargets.Finite ∧ p.unsuppliedSites.Finite
  /-- The entered blocks are the leaders. -/
  reachedBlocks : stats.reachedBlocks = {k | Leads p.labels p.instructions.toList k}.ncard
  /-- Each further block is the target of a branch without an instruction. -/
  blocks : stats.blocks = stats.reachedBlocks + p.strayTargets.ncard
  danglingTargets : stats.danglingTargets = {k | p.DanglesAt k}.ncard
  warnings : c.journal.toList.countP LogRecord.isWarning = stats.danglingTargets
  definitions : stats.definitions = p.assignmentCount
  assignments : stats.emitted .assignment = stats.definitions
  emitted : ∀ kind, stats.emitted kind = p.instructions.toList.countP (·.kind == kind)
  totalEmitted : stats.totalEmitted = p.size
  phis : stats.phis = c.recorded.phis.length
  /-- A phi is written into the journal when it is reported. -/
  placed : c.journal.toList.filterMap LogRecord.phi? = c.recorded.phis
  unaliases : c.recorded.unaliases.length = stats.definitions + stats.phis
  unresolvedImports : stats.unresolvedImports = p.unsuppliedSites.ncard
  unresolved : c.journal.toList.countP LogRecord.isUnresolved = stats.unresolvedImports

/-- **The statistics of a successful conversion account for it.** -/
theorem convert_accounts {config : Config} {schedule : Schedule} {p : Program τ} {stats : Stats}
    (h : (convert config schedule p).outcome = .ok stats) :
    stats.AccountFor p (convert config schedule p) := by
  obtain ⟨g, ds, deeds, haccount⟩ := convert_account h
  obtain ⟨_, es, hconverted⟩ := convert_converted h
  obtain ⟨hblocks, hreached, hdangling, hdefinitions⟩ := haccount.counted_before
  obtain ⟨hwarnings, hplaced, hunresolved⟩ := haccount.journal_counts
  have hlaid := FlowGraph.build_laid haccount.built
  have hemitted : ∀ kind, stats.emitted kind = p.instructions.toList.countP (·.kind == kind) := by
    intro kind
    rw [haccount.stats_emitted, hconverted.countP_kind]
  exact {
    finite := ⟨p.finite_strayTargets, p.finite_unsuppliedSites⟩
    reachedBlocks := hreached.trans hlaid.reachedCount_eq
    blocks := by rw [hblocks, hreached, hlaid.blockCount_eq]
    danglingTargets := hdangling.trans hlaid.size_dangling
    warnings := hwarnings.trans hdangling.symm
    definitions := hdefinitions.trans haccount.definitions
    assignments := by
      rw [hemitted, hdefinitions, haccount.definitions, Program.assignmentCount,
        ← Array.countP_toList]
      exact List.countP_congr fun i _ => by rw [i.isAssignment_eq]
    emitted := hemitted
    totalEmitted := by
      calc stats.totalEmitted
          = stats.emitted .assignment + stats.emitted .statement + stats.emitted .branch := rfl
        _ = p.instructions.toList.length := by
            rw [hemitted, hemitted, hemitted, ← length_eq_countP_kinds]
        _ = p.size := Array.length_toList
    phis := haccount.stats_phis
    placed := hplaced
    unaliases := by rw [haccount.length_unaliases, haccount.stats_phis, hdefinitions]
    unresolvedImports := haccount.stats_unresolvedImports.trans haccount.left
    unresolved := hunresolved.trans haccount.stats_unresolvedImports.symm }

/-- The counting loop with a branch to nowhere behind it, which reads a local that is never
assigned. -/
def strayLoop : Program Unit :=
  .ofList [⟨0, (), [], .assign ⟨5⟩⟩, ⟨1, (), [⟨5⟩, ⟨1⟩], .assign ⟨5⟩⟩,
    ⟨2, (), [⟨5⟩], .branch true 1⟩, ⟨3, (), [⟨1⟩, ⟨1⟩], .branch true 9⟩]

/-- The stray target has a block of its own, and local 1 is left as it is once in each of two
blocks. -/
theorem strayLoop_accounted :
    (convert {} .sequential strayLoop).outcome = .ok
      { blocks := 4, reachedBlocks := 3, danglingTargets := 1, definitions := 2, phis := 1,
        unresolvedImports := 2, assignments := 2, branches := 2 } ∧
    strayLoop.strayTargets.ncard = 1 ∧ {k | strayLoop.DanglesAt k}.ncard = 1 ∧
    strayLoop.unsuppliedSites.ncard = 2 ∧
    (convert {} .sequential strayLoop).recorded.unaliases.length = 3 ∧
    (convert {} .sequential strayLoop).journal.toList.countP LogRecord.isUnresolved = 2 := by
  have h : (convert {} .sequential strayLoop).outcome = .ok
      { blocks := 4, reachedBlocks := 3, danglingTargets := 1, definitions := 2, phis := 1,
        unresolvedImports := 2, assignments := 2, branches := 2 } := by cbv
  have haccount := convert_accounts h
  have hblocks : 4 = 3 + strayLoop.strayTargets.ncard := haccount.blocks
  refine ⟨h, by omega, haccount.danglingTargets.symm, haccount.unresolvedImports.symm,
    haccount.unaliases, haccount.unresolved⟩

end SingleAssignment
