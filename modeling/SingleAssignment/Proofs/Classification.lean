import SingleAssignment.Proofs.Convert.Demand
import SingleAssignment.Proofs.Flow.Refusal
import SingleAssignment.Proofs.Freshness

/-!
# The outcome of a conversion

A program and a configuration decide how a conversion ends.  It refuses a program without
instructions, a program that repeats an offset and, if the configuration says so, a program with a
dangling branch; it runs out of locals if the program mentions too many of them; in all other cases
it succeeds.

* `Program.required`, `Program.available` — the locals a conversion takes, and those it can take.
* `Program.Refused` — the fault of a conversion, read off the program.
* `convert_outcome_classified` — **a conversion ends as its program and configuration say.**
-/

namespace SingleAssignment

variable {τ : Type}

/-! ## Locals required and available -/

namespace Program

/-- The number of locals that a conversion takes: one for each assignment, and one for each block
and each local that needs a phi there. -/
noncomputable def required (p : Program τ) : Nat :=
  p.assignmentCount + p.phiSites.ncard

/-- The number of locals from 1 on that the program does not mention. -/
noncomputable def available (p : Program τ) : Nat :=
  {x : Local | 1 ≤ x.index.toNat ∧ p.Unmentioned x}.ncard

theorem available_eq_zero {p : Program τ} (h : ∀ x, ¬ p.Unmentioned x) : p.available = 0 := by
  have hnone : {x : Local | 1 ≤ x.index.toNat ∧ p.Unmentioned x} = ∅ :=
    Set.eq_empty_of_forall_notMem fun x hx => h x hx.2
  rw [available, hnone, Set.ncard_empty]

theorem count_free_locals (p : Program τ) :
    Nat.count (Supply.Free p.locals) (2 ^ 32) = p.available := by
  rw [Supply.count_free, available]
  simp only [unmentioned_iff]

theorem holds_available (p : Program τ) : (Supply.ofUsed p.locals).Holds p.locals p.available := by
  rw [← p.count_free_locals]
  exact Supply.holds_ofUsed p.locals

end Program

/-! ## The steps of a conversion -/

/-- The configuration refuses dangling branches, and the program has one. -/
def Program.Dangling (p : Program τ) (config : Config) : Prop :=
  config.rejectDangling = true ∧ ∃ k, p.DanglesAt k

namespace Run

variable {config : Config} {p : Program τ} {g : FlowGraph τ}

theorem checkDangling_eq_ok (h : g.Laid p.labels p.instructions.toList)
    (hpass : ¬ p.Dangling config) (r : Run τ) : checkDangling config g r = .ok () r := by
  unfold checkDangling
  cases hreject : config.rejectDangling with
  | false => rfl
  | true =>
      rw [h.dangling_zero_eq_none fun k hk => hpass ⟨hreject, k, hk⟩]
      rfl

theorem checkDangling_eq_error (hreject : config.rejectDangling = true) {b t : Offset}
    (hfirst : g.dangling[0]? = some (b, t)) (r : Run τ) :
    checkDangling config g r = .error (.danglingBranchTarget b t) r := by
  unfold checkDangling
  rw [hreject, hfirst]
  rfl

theorem exists_logAll (entries : List LogRecord) (r : Run τ) :
    ∃ r', logAll entries r = .ok () r' ∧ r'.supply = r.supply ∧ r'.events = r.events :=
  ⟨_, logAll_eq entries r, rfl, rfl⟩

/-- **A conversion costs the locals it requires**, and it succeeds if they are there. -/
theorem draws_convertProgram (schedule : Schedule) (hg : FlowGraph.ofProgram p = .ok g)
    (hpass : ¬ p.Dangling config) :
    Draws Run.supply p.locals (convertProgram config schedule p) p.required fun _ => True := by
  have hlaid := FlowGraph.build_laid hg
  have hlog : Draws Run.supply p.locals (logAll g.records : RunM τ Unit) 0 fun _ => True := by
    refine .of_ok fun r => ?_
    obtain ⟨r', hr, hsupply, -⟩ := exists_logAll g.records r
    exact ⟨(), r', hr, hsupply, trivial⟩
  have hget : Draws Run.supply p.locals (get : RunM τ (Run τ)) 0 fun _ => True :=
    .of_ok fun r => ⟨r, r, rfl, rfl, trivial⟩
  have hemit : ∀ g', (∃ ds, Naming p g g' ds) →
      Draws Run.supply p.locals (emitBlocks g' g'.order.toList) p.phiSites.ncard fun _ => True := by
    rintro g' ⟨ds, hn⟩
    rw [← hn.ncard_mergingSites]
    refine draws_emitBlocks hn.exists_reachingDefinitions (hn.renamed.order ▸ hlaid.nodup_order)
      fun n hmem => ?_
    rw [hn.renamed.order] at hmem
    obtain ⟨b, hb⟩ := hlaid.exists_block hmem
    obtain ⟨b', hb', -⟩ := hn.renamed.block? hb
    exact ⟨b', hb'⟩
  refine .of_answer (ofExcept_eq_ok hg) ?_
  refine (hlog.bind fun _ _ => .of_answer (checkDangling_eq_ok hlaid hpass) <|
    (draws_count _).bind fun _ _ => (draws_renameBlocks hg).bind fun g' hn =>
      (hemit g' hn).bind fun _ _ => hget.bind fun _ _ => (draws_log _).bind fun _ _ =>
        .pure trivial).of_eq ?_
  unfold Program.required
  omega

/-- Nothing is reported before the assignments have their locals. -/
theorem convertProgram_short (schedule : Schedule) {r : Run τ} {n : Nat}
    (hg : FlowGraph.ofProgram p = .ok g) (hpass : ¬ p.Dangling config)
    (hholds : r.supply.Holds p.locals n) (hlt : n < p.assignmentCount) :
    ∃ r', convertProgram config schedule p r = .error .localsExhausted r' ∧
      r'.events = r.events := by
  have hlaid := FlowGraph.build_laid hg
  obtain ⟨r₁, hlog, hsupply, hevents⟩ := exists_logAll g.records r
  rw [convertProgram, Outcome.run_bind_ok (ofExcept_eq_ok hg r), Outcome.run_bind_ok hlog,
    Outcome.run_bind_ok (checkDangling_eq_ok hlaid hpass r₁),
    Outcome.run_bind_ok (x := count _) (s := r₁) rfl]
  rw [← hsupply] at hholds
  refine (renameBlocks_short hlaid ?_ hlt).imp fun r₂ h =>
    ⟨Outcome.run_bind_error h.1 _, h.2.trans hevents⟩
  exact hholds

theorem convertProgram_dangling (schedule : Schedule) {b t : Offset}
    (hg : FlowGraph.ofProgram p = .ok g) (hreject : config.rejectDangling = true)
    (hfirst : g.dangling[0]? = some (b, t)) (r : Run τ) :
    ∃ r', convertProgram config schedule p r = .error (.danglingBranchTarget b t) r' ∧
      r'.events = r.events := by
  obtain ⟨r₁, hlog, -, hevents⟩ := exists_logAll g.records r
  rw [convertProgram, Outcome.run_bind_ok (ofExcept_eq_ok hg r), Outcome.run_bind_ok hlog,
    Outcome.run_bind_error (checkDangling_eq_error hreject hfirst r₁)]
  exact ⟨r₁, rfl, hevents⟩

end Run

/-! ## Classification -/

/-- The fault of a conversion, read off the program and the configuration. -/
def Program.Refused (p : Program τ) (config : Config) : Fault → Prop
  | .emptyProgram => p.size = 0
  | .duplicateOffset o =>
      ∃ k i, IsLeast {k | p.RepeatsAt k} k ∧ p.at? k = some i ∧ i.offset = o
  | .danglingBranchTarget b t =>
      p.Layable ∧ config.rejectDangling = true ∧ ∃ k i c, IsLeast {k | p.DanglesAt k} k ∧
        p.at? k = some i ∧ i.offset = b ∧ i.branch? = some (c, t)
  | .localsExhausted => p.Layable ∧ ¬ p.Dangling config ∧ p.available < p.required
  | .graph _ | .invariantViolation _ _ | .indexOutOfBounds | .capacityOverflow => False

section Convert

variable {config : Config} {schedule : Schedule} {p : Program τ} {e : Fault} {r : Run τ}

theorem convert_of_error
    (h : Run.convertProgram config schedule p { supply := .ofUsed p.locals } = .error e r) :
    (convert config schedule p).outcome = .error e ∧
      (convert config schedule p).events = r.events := by
  unfold convert
  rw [h]
  exact ⟨rfl, rfl⟩

/-- A program without a flow graph is refused at once. -/
theorem convert_of_ofProgram_error (h : FlowGraph.ofProgram p = .error e) :
    (convert config schedule p).outcome = .error e ∧
      (convert config schedule p).events = #[] := by
  refine convert_of_error (r := { supply := .ofUsed p.locals }) (Outcome.run_bind_error ?_ _)
  rw [h]
  rfl

theorem exists_ofProgram (h : p.Layable) : ∃ g, FlowGraph.ofProgram p = .ok g := by
  rcases FlowGraph.ofProgram_cases p with ⟨hsize, -⟩ | ⟨k, i, hk, -⟩ | ⟨-, hg⟩
  · exact absurd hsize h.1
  · exact absurd hk.1 (h.2 k)
  · exact hg

theorem convert_of_empty (h : p.size = 0) :
    (convert config schedule p).outcome = .error .emptyProgram ∧
      (convert config schedule p).events = #[] := by
  rcases FlowGraph.ofProgram_cases p with ⟨-, herr⟩ | ⟨k, i, -, hi, -⟩ | ⟨hlay, -⟩
  · exact convert_of_ofProgram_error herr
  · have hk : k < p.size := (Array.getElem?_eq_some_iff.1 hi).1
    omega
  · exact absurd h hlay.1

theorem convert_of_repeats {k : Nat} {i : Instruction τ} (hk : IsLeast {k | p.RepeatsAt k} k)
    (hi : p.at? k = some i) :
    (convert config schedule p).outcome = .error (.duplicateOffset i.offset) ∧
      (convert config schedule p).events = #[] := by
  rcases FlowGraph.ofProgram_cases p with ⟨hsize, -⟩ | ⟨k', i', hk', hi', herr⟩ | ⟨hlay, -⟩
  · have hlt : k < p.size := (Array.getElem?_eq_some_iff.1 hi).1
    omega
  · obtain rfl := hk.unique hk'
    rw [hi] at hi'
    cases hi'
    exact convert_of_ofProgram_error herr
  · exact absurd hk.1 (hlay.2 k)

theorem convert_of_dangles (hlay : p.Layable) (hreject : config.rejectDangling = true) {k : Nat}
    {i : Instruction τ} {c : Bool} {t : Offset} (hk : IsLeast {k | p.DanglesAt k} k)
    (hi : p.at? k = some i) (hb : i.branch? = some (c, t)) :
    (convert config schedule p).outcome = .error (.danglingBranchTarget i.offset t) ∧
      (convert config schedule p).events = #[] := by
  obtain ⟨g, hg⟩ := exists_ofProgram hlay
  have hfirst := (FlowGraph.build_laid hg).dangling_zero hk hi hb
  obtain ⟨r, hrun, hevents⟩ := Run.convertProgram_dangling schedule hg hreject hfirst
    { supply := .ofUsed p.locals }
  exact (convert_of_error hrun).imp_right (·.trans hevents)

theorem convert_of_short (hlay : p.Layable) (hpass : ¬ p.Dangling config)
    (hlt : p.available < p.required) :
    (convert config schedule p).outcome = .error .localsExhausted := by
  obtain ⟨g, hg⟩ := exists_ofProgram hlay
  obtain ⟨r, hrun⟩ := (Run.draws_convertProgram schedule hg hpass).short
    (s := { supply := .ofUsed p.locals }) p.holds_available hlt
  exact (convert_of_error hrun).1

theorem convert_of_short_for_assignments (hlay : p.Layable) (hpass : ¬ p.Dangling config)
    (hlt : p.available < p.assignmentCount) :
    (convert config schedule p).events = #[] := by
  obtain ⟨g, hg⟩ := exists_ofProgram hlay
  obtain ⟨r, hrun, hevents⟩ := Run.convertProgram_short schedule
    (r := { supply := .ofUsed p.locals }) hg hpass p.holds_available hlt
  exact (convert_of_error hrun).2.trans hevents

theorem convert_of_enough (schedule : Schedule) (hlay : p.Layable) (hpass : ¬ p.Dangling config)
    (hle : p.required ≤ p.available) :
    ∃ stats, (convert config schedule p).outcome = .ok stats := by
  obtain ⟨g, hg⟩ := exists_ofProgram hlay
  have hholds := p.holds_available
  rw [← Nat.sub_add_cancel hle] at hholds
  obtain ⟨stats, r, hrun, -⟩ := (Run.draws_convertProgram schedule hg hpass).enough
    (s := { supply := .ofUsed p.locals }) hholds
  refine ⟨stats, ?_⟩
  unfold convert
  rw [hrun]

theorem convert_of_refused (h : p.Refused config e) :
    (convert config schedule p).outcome = .error e := by
  cases e with
  | emptyProgram => exact (convert_of_empty h).1
  | duplicateOffset o =>
      obtain ⟨k, i, hk, hi, rfl⟩ := h
      exact (convert_of_repeats hk hi).1
  | danglingBranchTarget b t =>
      obtain ⟨hlay, hreject, k, i, c, hk, hi, rfl, hb⟩ := h
      exact (convert_of_dangles hlay hreject hk hi hb).1
  | localsExhausted => exact convert_of_short h.1 h.2.1 h.2.2
  | graph _ => exact h.elim
  | invariantViolation _ _ => exact h.elim
  | indexOutOfBounds => exact h.elim
  | capacityOverflow => exact h.elim

/-- Every program that cannot be converted is refused for a reason. -/
theorem Program.exists_refused
    (h : ¬ (p.Layable ∧ ¬ p.Dangling config ∧ p.required ≤ p.available)) :
    ∃ e, p.Refused config e := by
  by_cases hlay : p.Layable
  · by_cases hdangling : p.Dangling config
    · obtain ⟨k, i, c, t, hk, hi, hb⟩ := Program.exists_first_dangling hdangling.2
      exact ⟨.danglingBranchTarget i.offset t, hlay, hdangling.1, k, i, c, hk, hi, rfl, hb⟩
    · refine ⟨.localsExhausted, hlay, hdangling, Nat.lt_of_not_le fun hle => ?_⟩
      exact h ⟨hlay, hdangling, hle⟩
  · rcases not_layable hlay with hsize | ⟨k, i, hk, hi⟩
    · exact ⟨.emptyProgram, hsize⟩
    · exact ⟨.duplicateOffset i.offset, k, i, hk, hi, rfl⟩

theorem convert_events_eq_empty
    (h : ¬ p.Layable ∨ p.Dangling config ∨ p.available < p.assignmentCount) :
    (convert config schedule p).events = #[] := by
  by_cases hlay : p.Layable
  · by_cases hdangling : p.Dangling config
    · obtain ⟨k, i, c, t, hk, hi, hb⟩ := Program.exists_first_dangling hdangling.2
      exact (convert_of_dangles hlay hdangling.1 hk hi hb).2
    · exact convert_of_short_for_assignments hlay hdangling
        ((h.resolve_left (not_not.2 hlay)).resolve_left hdangling)
  · rcases Program.not_layable hlay with hsize | ⟨k, i, hk, hi⟩
    · exact (convert_of_empty hsize).2
    · exact (convert_of_repeats hk hi).2

end Convert

/-- Renaming keeps all numbers in range. -/
theorem FlowGraph.InRange.renameAlong {g g' : FlowGraph τ} (h : g.InRange)
    {reserved : Array (List Local)} {ns : List Node}
    {definitions definitions' : Array (List (Local × Local))}
    (hok : FlowGraph.renameAlong reserved ns definitions g = .ok definitions' g') : g'.InRange := by
  induction ns generalizing definitions g with
  | nil =>
      obtain ⟨-, rfl⟩ := Outcome.of_run_pure hok
      exact h
  | cons n ns ih =>
      obtain ⟨b, b', ds, -, -, -, -, hrest⟩ := FlowGraph.renameAlong_cons hok
      exact ih (h.setBlock n b') hrest

/-- **Classification of outcomes.**  A conversion fails exactly with the faults that `Refused` reads
off its program and configuration, and these leave out every fault of a graph, an invariant, an index
into a table or a set, or a request for room.  It succeeds exactly if the program has instructions at
distinct offsets, no dangling branch is refused, and the locals that it does not mention are at least
as many as its assignments and phi sites together.  Nothing is reported of a program that is refused,
or whose assignments alone need more locals than there are.  All numbers in its flow graph are in
range, at each instruction while it is built and whichever blocks are renamed by then. -/
theorem convert_outcome_classified (config : Config) (schedule : Schedule) (p : Program τ) :
    (∀ e, (convert config schedule p).outcome = .error e ↔ p.Refused config e) ∧
      ((∃ stats, (convert config schedule p).outcome = .ok stats) ↔
        p.Layable ∧ ¬ p.Dangling config ∧ p.required ≤ p.available) ∧
      p.phiSites.Finite ∧
      (¬ p.Layable ∨ p.Dangling config ∨ p.available < p.assignmentCount →
        (convert config schedule p).events = #[]) ∧
      ∀ is g, is <+: p.instructions.toList → FlowGraph.build p.labels is = .ok g →
        g.InRange ∧ ∀ reserved ns definitions definitions' g',
          FlowGraph.renameAlong reserved ns definitions g = .ok definitions' g' → g'.InRange := by
  refine ⟨fun e => ⟨fun h => ?_, convert_of_refused⟩, ⟨?_, ?_⟩, p.finite_phiSites,
    convert_events_eq_empty, fun is g _ hg => ?_⟩
  · -- only one fault can be right, and there is one since the conversion has failed
    by_cases hok : p.Layable ∧ ¬ p.Dangling config ∧ p.required ≤ p.available
    · obtain ⟨stats, hstats⟩ := convert_of_enough schedule hok.1 hok.2.1 hok.2.2
      rw [h] at hstats
      cases hstats
    · obtain ⟨e', he'⟩ := Program.exists_refused hok
      rw [convert_of_refused he'] at h
      cases h
      exact he'
  · rintro ⟨stats, hstats⟩
    by_contra hno
    obtain ⟨e, he⟩ := Program.exists_refused hno
    rw [convert_of_refused he] at hstats
    cases hstats
  · rintro ⟨hlay, hpass, hle⟩
    exact convert_of_enough schedule hlay hpass hle
  · have hrange := (FlowGraph.build_laid hg).inRange
    exact ⟨hrange, fun _ _ _ _ _ hok => hrange.renameAlong hok⟩

/-- One assignment that reads the locals `xs`. -/
def assignFrom (xs : List Local) : Program Unit := .ofList [⟨0, (), xs, .assign ⟨1⟩⟩]

theorem layable_assignFrom (xs : List Local) : (assignFrom xs).Layable := by
  refine ⟨Nat.one_ne_zero, ?_⟩
  rintro k ⟨q, i, j, hqk, -, hj, -⟩
  have hk : k < 1 := (Array.getElem?_eq_some_iff.1 hj).1
  omega

theorem assignmentCount_assignFrom (xs : List Local) : (assignFrom xs).assignmentCount = 1 := rfl

theorem available_assignFrom {xs : List Local} (h : ∀ x, x ∈ xs) :
    (assignFrom xs).available = 0 := by
  refine Program.available_eq_zero fun x hx => ?_
  exact (hx ⟨0, (), xs, .assign ⟨1⟩⟩ (by simp [assignFrom])).2 (h x)

/-- An assignment in a program that reads all locals finds none for itself. -/
theorem assignFrom_everyLocal_exhausted :
    (convert {} .sequential (assignFrom everyLocal)).outcome = .error .localsExhausted ∧
      (convert {} .sequential (assignFrom everyLocal)).events = #[] := by
  obtain ⟨hfault, -, -, hevents, -⟩ :=
    convert_outcome_classified {} .sequential (assignFrom everyLocal)
  have hlt : (assignFrom everyLocal).available < (assignFrom everyLocal).assignmentCount := by
    rw [available_assignFrom mem_everyLocal, assignmentCount_assignFrom]
    exact Nat.one_pos
  refine ⟨(hfault _).2 ⟨layable_assignFrom _, fun h => Bool.false_ne_true h.1, ?_⟩,
    hevents (.inr (.inr hlt))⟩
  exact Nat.lt_of_lt_of_le hlt (Nat.le_add_right _ _)

end SingleAssignment
