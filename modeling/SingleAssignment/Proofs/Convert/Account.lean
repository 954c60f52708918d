import SingleAssignment.Proofs.Convert.Demand
import SingleAssignment.Proofs.Convert.Record

/-!
# The account of a conversion

Emission counts what it does, and it also reports it, writes it into the journal, or both.  Each
thing that it does is a deed; events, records and counters of a run are three readings of the same
list of deeds.  Whether an import is left as it is shows in two ways, though: the counter goes by
the definitions that were found, and the record by whether the local has changed.  They go together
because no definition and no phi has the name of a local of the program.

* `Deed` — one thing that emission does, with its events, its record and its count.
* `Run.Does` — a run goes on by some deeds.
* `Run.emitBlocks_does` — **emission is a list of deeds**, and it leaves as many imports as they are
  as there are imports without a definition.
* `Account`, `convert_account` — **everything that a successful conversion counts, reports and
  writes into its journal.**
-/

namespace SingleAssignment

variable {τ : Type}

/-! ## Deeds -/

/-- One thing that emission does. -/
inductive Deed (τ : Type) where
  /-- An import of `x` is left as it is. -/
  | left (x : Local) (offset block : Offset)
  /-- Definitions are merged. -/
  | merged (φ : Phi)
  /-- An instruction is emitted. -/
  | emitted (i : Instruction τ)

namespace Deed

/-- What is reported of a deed. -/
def events : Deed τ → List (Event τ)
  | .left _ _ _ => []
  | .merged φ => φ.events
  | .emitted i => [.instruction i]

/-- What is written into the journal. -/
def record? : Deed τ → Option LogRecord
  | .left x offset block => some (.unresolved x offset block)
  | .merged φ => some (.phiPlaced φ)
  | .emitted _ => none

/-- What is counted. -/
def tally : Deed τ → Stats → Stats
  | .left _ _ _, s => { s with unresolvedImports := s.unresolvedImports + 1 }
  | .merged _, s => { s with phis := s.phis + 1 }
  | .emitted i, s => s.countEmitted i.kind

/-- The counters after a list of deeds. -/
def tallyAll (deeds : List (Deed τ)) (s : Stats) : Stats := deeds.foldl (fun s d => d.tally s) s

/-- Whether an import is left as it is. -/
def isLeft : Deed τ → Bool
  | .left _ _ _ => true
  | _ => false

/-- The phi of a deed. -/
def phi? : Deed τ → Option Phi
  | .merged φ => some φ
  | _ => none

/-- The instruction of a deed. -/
def instruction? : Deed τ → Option (Instruction τ)
  | .emitted i => some i
  | _ => none

theorem tallyAll_append (deeds deeds' : List (Deed τ)) (s : Stats) :
    tallyAll (deeds ++ deeds') s = tallyAll deeds' (tallyAll deeds s) :=
  List.foldl_append

/-- A counter that goes up with each deed as a measure of the deeds does. -/
theorem counter_tallyAll {f : Stats → Nat} {w : List (Deed τ) → Nat} (hnil : w [] = 0)
    (hcons : ∀ d deeds s, f (d.tally s) + w deeds = f s + w (d :: deeds)) (deeds : List (Deed τ))
    (s : Stats) : f (tallyAll deeds s) = f s + w deeds := by
  induction deeds generalizing s with
  | nil => rw [hnil]; rfl
  | cons d deeds ih => exact (ih (d.tally s)).trans (hcons d deeds s)

theorem phis_tallyAll (deeds : List (Deed τ)) (s : Stats) :
    (tallyAll deeds s).phis = s.phis + (deeds.filterMap phi?).length := by
  refine counter_tallyAll (f := Stats.phis) (w := fun deeds => (deeds.filterMap phi?).length) rfl
    (fun d deeds s => ?_) deeds s
  cases d with
  | left _ _ _ => rfl
  | merged φ => simp [tally, phi?]; omega
  | emitted i => cases h : i.kind <;> simp [tally, phi?, Stats.countEmitted, h, List.filterMap_cons]

theorem unresolvedImports_tallyAll (deeds : List (Deed τ)) (s : Stats) :
    (tallyAll deeds s).unresolvedImports = s.unresolvedImports + deeds.countP isLeft := by
  refine counter_tallyAll (f := Stats.unresolvedImports) (w := List.countP isLeft) rfl
    (fun d deeds s => ?_) deeds s
  cases d with
  | left _ _ _ => simp [tally, isLeft, List.countP_cons]; omega
  | merged φ => simp [tally, isLeft]
  | emitted i => cases h : i.kind <;> simp [tally, isLeft, Stats.countEmitted, h]

theorem emitted_tallyAll (kind : Kind) (deeds : List (Deed τ)) (s : Stats) :
    (tallyAll deeds s).emitted kind =
      s.emitted kind + (deeds.filterMap instruction?).countP (·.kind == kind) := by
  refine counter_tallyAll (f := fun s => s.emitted kind)
    (w := fun deeds => (deeds.filterMap instruction?).countP (·.kind == kind)) rfl
    (fun d deeds s => ?_) deeds s
  cases d with
  | left _ _ _ => cases kind <;> rfl
  | merged φ => cases kind <;> rfl
  | emitted i =>
      cases kind <;> cases h : i.kind <;>
        simp [tally, instruction?, Stats.countEmitted, Stats.emitted, h] <;> omega

/-- Deeds leave alone what is counted before them. -/
theorem tallyAll_frame {α : Type} {f : Stats → α} (hf : ∀ (d : Deed τ) s, f (d.tally s) = f s)
    (deeds : List (Deed τ)) (s : Stats) : f (tallyAll deeds s) = f s := by
  induction deeds generalizing s with
  | nil => rfl
  | cons d deeds ih => exact (ih (d.tally s)).trans (hf d s)

theorem filterMap_phi?_events (deeds : List (Deed τ)) :
    (deeds.flatMap events).filterMap Event.phi? = deeds.filterMap phi? := by
  rw [List.filterMap_flatMap, List.filterMap_eq_flatMap_toList]
  refine List.flatMap_congr fun d _ => ?_
  cases d <;> rfl

theorem filterMap_instruction?_events (deeds : List (Deed τ)) :
    (deeds.flatMap events).filterMap Event.instruction? = deeds.filterMap instruction? := by
  rw [List.filterMap_flatMap, List.filterMap_eq_flatMap_toList]
  refine List.flatMap_congr fun d _ => ?_
  cases d <;> rfl

end Deed

/-! ## Deeds of a run -/

/-- The run goes on by the deeds. -/
structure Run.Does (r : Run τ) (deeds : List (Deed τ)) (r' : Run τ) : Prop where
  events : r'.events.toList = r.events.toList ++ deeds.flatMap Deed.events
  journal : r'.journal.toList = r.journal.toList ++ deeds.filterMap Deed.record?
  stats : r'.stats = Deed.tallyAll deeds r.stats

/-- The supply of the run has been used only to mint locals, none of them in `used`. -/
def Run.Minting (used : LocalSet) (r : Run τ) : Prop :=
  ∃ ids, (Supply.ofUsed used).Mints ids r.supply

namespace Run

theorem Does.refl (r : Run τ) : r.Does [] r := ⟨by simp, by simp, rfl⟩

theorem Does.trans {r s t : Run τ} {deeds deeds' : List (Deed τ)} (h : r.Does deeds s)
    (h' : s.Does deeds' t) : r.Does (deeds ++ deeds') t where
  events := by rw [h'.events, h.events, List.flatMap_append, List.append_assoc]
  journal := by rw [h'.journal, h.journal, List.filterMap_append, List.append_assoc]
  stats := by rw [h'.stats, h.stats, Deed.tallyAll_append]

theorem Advances.minting {used : LocalSet} {r r' : Run τ} {events : List (Event τ)}
    {ids : List Local} (h : r.Advances events ids r') (hr : r.Minting used) : r'.Minting used :=
  let ⟨pre, hpre⟩ := hr
  ⟨pre ++ ids, hpre.append h.supply⟩

theorem Minting.fresh_not_mem {used : LocalSet} {r : Run τ} {x : Local} {s : Supply}
    (hr : r.Minting used) (h : Supply.fresh r.supply = .ok x s) : x ∉ used := by
  obtain ⟨ids, hids⟩ := hr
  exact (hids.append (Supply.mints_of_fresh h)).not_mem (by simp)

end Run

/-- At a node, imports are in `used` and definitions are not. -/
structure FlowGraph.Distinguishes (used : LocalSet) (g : FlowGraph τ) (n : Node) (b : Block τ) :
    Prop where
  imports : ∀ {x : Local}, b.imports x = true → x ∈ used
  definitions : ∀ {x : Local} {cs : List Contributor}, g.reachingDefinitions n x = .ok cs →
    ∀ c ∈ cs, c.value ∉ used

/-! ## Emission -/

namespace Run

variable {used : LocalSet} {g : FlowGraph τ} {n : Node} {b : Block τ} {offset : Offset}
  {done : List Local} {m m' : LocalMap} {r r' : Run τ}

/-- A local that an import resolves to is the import itself only if there is no definition. -/
theorem noteUnresolved_of_ne {x y : Local} (hne : y ≠ x) {u : Unit}
    (h : noteUnresolved b offset x y r = .ok u r') : r' = r := by
  rw [noteUnresolved, if_neg hne] at h
  exact (Outcome.of_run_pure h).2.symm

theorem resolveOperand_does (hd : g.Distinguishes used n b) (hr : r.Minting used)
    (hm : TableOf b done m) {x y : Local}
    (h : resolveOperand g n b offset m x r = .ok (y, m') r') :
    ∃ deeds, r.Does deeds r' ∧
      deeds.countP Deed.isLeft = (b.NewImports (g.FindsNone n) done [x]).ncard := by
  unfold resolveOperand at h
  by_cases himports : b.imports x = true
  · rw [if_pos himports] at h
    cases hx : m[x]? with
    | some z =>
        rw [hx] at h
        obtain ⟨-, rfl⟩ := Outcome.of_run_pure h
        refine ⟨[], .refl r, ?_⟩
        rw [Block.ncard_newImports_eq_zero fun h => h.1 (hm.mem_done hx)]
        rfl
    | none =>
        rw [hx] at h
        obtain ⟨z, s, himport, h₁⟩ := Outcome.of_run_bind h
        obtain ⟨_, t, hnote, h₁⟩ := Outcome.of_run_bind h₁
        obtain ⟨-, rfl⟩ := Outcome.of_run_pure h₁
        have hfound : ∀ {cs : List Contributor}, g.reachingDefinitions n x = .ok cs → cs ≠ [] →
            (b.NewImports (g.FindsNone n) done [x]).ncard = 0 := by
          intro cs hcs hne
          refine Block.ncard_newImports_eq_zero fun h => hne ?_
          rw [FlowGraph.FindsNone, hcs] at h
          exact Except.ok.inj h.2.2
        rcases resolveImport_cases himport with
          ⟨hcs, rfl, rfl⟩ | ⟨c, hcs, rfl, rfl⟩ | ⟨cs, s', hcs, hlen, hfresh, rfl⟩
        · rw [noteUnresolved, if_pos rfl] at hnote
          cases hnote
          refine ⟨[.left z offset b.offset],
            ⟨by simp [Deed.events], by simp [Deed.record?], rfl⟩, ?_⟩
          rw [Block.ncard_newImports_eq_one (hm.not_mem_done himports hx) himports hcs]
          rfl
        · have hne : c.value ≠ x := fun he =>
            hd.definitions hcs c (by simp) (he ▸ hd.imports himports)
          obtain rfl := noteUnresolved_of_ne hne hnote
          exact ⟨[], .refl _, (hfound hcs (by simp)).symm⟩
        · have hne : z ≠ x := fun he => hr.fresh_not_mem hfresh (he ▸ hd.imports himports)
          obtain rfl := noteUnresolved_of_ne hne hnote
          refine ⟨[.merged ⟨offset, z, x, cs⟩],
            ⟨by simp [Deed.events, Phi.events], by simp [Deed.record?], rfl⟩, ?_⟩
          rw [hfound hcs (by rintro rfl; simp at hlen)]
          rfl
  · rw [if_neg himports] at h
    obtain ⟨-, rfl⟩ := Outcome.of_run_pure h
    refine ⟨[], .refl r, ?_⟩
    rw [Block.ncard_newImports_eq_zero fun h => himports h.2.1]
    rfl

theorem resolveOperands_does (hd : g.Distinguishes used n b) (hr : r.Minting used)
    (hm : TableOf b done m) {xs ys : List Local}
    (h : resolveOperands g n b offset m xs r = .ok (ys, m') r') :
    ∃ deeds, r.Does deeds r' ∧
      deeds.countP Deed.isLeft = (b.NewImports (g.FindsNone n) done xs).ncard := by
  induction xs generalizing m done r ys with
  | nil =>
      obtain ⟨-, rfl⟩ := Outcome.of_run_pure h
      exact ⟨[], .refl r, by simp⟩
  | cons x xs ih =>
      obtain ⟨⟨y, m₁⟩, s, hx, h₁⟩ := Outcome.of_run_bind h
      obtain ⟨⟨zs, m₂⟩, t, hxs, h₂⟩ := Outcome.of_run_bind h₁
      obtain ⟨he, rfl⟩ := Outcome.of_run_pure h₂
      cases he
      obtain ⟨φs, hres, hadv⟩ := resolveOperand_ok hx
      obtain ⟨deeds, hdoes, hcount⟩ := resolveOperand_does hd hr hm hx
      obtain ⟨deeds', hdoes', hcount'⟩ := ih (hadv.minting hr) (hm.resolves hres) hxs
      refine ⟨deeds ++ deeds', hdoes.trans hdoes', ?_⟩
      rw [List.countP_append, hcount, hcount', ← List.singleton_append (l := xs),
        Block.ncard_newImports_append]

theorem emitInstructions_does (hd : g.Distinguishes used n b) (hr : r.Minting used)
    (hm : TableOf b done m) {is : List (Instruction τ)} {u : Unit}
    (h : emitInstructions g n b m is r = .ok u r') :
    ∃ deeds, r.Does deeds r' ∧ deeds.countP Deed.isLeft =
      (b.NewImports (g.FindsNone n) done (is.flatMap (·.operands))).ncard := by
  induction is generalizing m done r with
  | nil =>
      obtain ⟨-, rfl⟩ := Outcome.of_run_pure h
      exact ⟨[], .refl r, by simp⟩
  | cons i is ih =>
      obtain ⟨⟨ys, m₁⟩, s, hops, h₁⟩ := Outcome.of_run_bind h
      obtain ⟨_, t, hcounted, h₁⟩ := Outcome.of_run_bind h₁
      obtain ⟨_, v, hreport, h₁⟩ := Outcome.of_run_bind h₁
      obtain ⟨φs, hres, hadv⟩ := resolveOperands_ok hops
      obtain ⟨deeds, hdoes, hcount⟩ := resolveOperands_does hd hr hm hops
      have hadv' := hadv.trans ((count_ok hcounted).trans (report_ok hreport))
      obtain ⟨deeds', hdoes', hcount'⟩ := ih (hadv'.minting hr) (hm.resolvesAll hres) h₁
      have hemit : s.Does [.emitted { i with operands := ys }] v := by
        cases hcounted
        cases hreport
        exact ⟨by simp [Deed.events], by simp [Deed.record?], rfl⟩
      refine ⟨deeds ++ (.emitted { i with operands := ys } :: deeds'),
        hdoes.trans (hemit.trans hdoes'), ?_⟩
      rw [List.countP_append, List.countP_cons_of_neg (by simp [Deed.isLeft]), hcount, hcount',
        List.flatMap_cons, Block.ncard_newImports_append]

/-- **Emission is a list of deeds**, and it leaves as many imports as they are as there are imports
without a definition. -/
theorem emitBlocks_does {ns : List Node} (hnd : ns.Nodup) (hr : r.Minting used)
    (hd : ∀ n ∈ ns, ∀ b, g.block? n = some b → g.Distinguishes used n b) {u : Unit}
    (h : emitBlocks g ns r = .ok u r') :
    ∃ deeds, r.Does deeds r' ∧
      deeds.countP Deed.isLeft = (g.importSites g.FindsNone ns).ncard := by
  induction ns generalizing r with
  | nil =>
      obtain ⟨-, rfl⟩ := Outcome.of_run_pure h
      exact ⟨[], .refl r, by simp⟩
  | cons n ns ih =>
      obtain ⟨hnotin, hnd⟩ := List.nodup_cons.1 hnd
      obtain ⟨b, s, hof, h₁⟩ := Outcome.of_run_bind h
      obtain ⟨hb, rfl⟩ := FlowGraph.blockOf_ok hof
      obtain ⟨_, t, hemit, h₁⟩ := Outcome.of_run_bind h₁
      obtain ⟨es, -, hadv⟩ := emitInstructions_ok hemit
      obtain ⟨deeds, hdoes, hcount⟩ :=
        emitInstructions_does (hd n List.mem_cons_self b hb) hr tableOf_empty hemit
      obtain ⟨deeds', hdoes', hcount'⟩ := ih hnd (hadv.minting hr)
        (fun m hm => hd m (List.mem_cons_of_mem n hm)) h₁
      refine ⟨deeds ++ deeds', hdoes.trans hdoes', ?_⟩
      rw [List.countP_append, hcount, hcount', FlowGraph.ncard_importSites_cons hnotin,
        FlowGraph.importsAt_eq hb]

end Run

/-! ## The whole conversion -/

/-- What a conversion of a program has counted, reported and written into its journal: `ds` are the
definitions, and `deeds` is what emission has done. -/
structure Account (p : Program τ) (g : FlowGraph τ) (ds : List (Local × Local))
    (deeds : List (Deed τ)) (stats : Stats) (c : Conversion τ) : Prop where
  built : FlowGraph.ofProgram p = .ok g
  definitions : ds.length = p.assignmentCount
  events : c.events.toList = ds.map (fun d => .unalias d.1 d.2) ++ deeds.flatMap Deed.events
  journal : ∃ parallel reached, c.journal.toList = g.records ++
    (Run.renamingRecords parallel g.blockCount ds.length reached).toList ++
      deeds.filterMap Deed.record? ++ [.finished stats]
  stats : stats = Deed.tallyAll deeds { g.counts with definitions := ds.length }
  left : deeds.countP Deed.isLeft = p.unsuppliedSites.ncard

theorem Naming.distinguishes {p : Program τ} {g g' : FlowGraph τ} {ds : List (Local × Local)}
    (h : Naming p g g' ds) {n : Node} (hn : n ∈ g'.order.toList) {b' : Block τ}
    (hb' : g'.block? n = some b') : g'.Distinguishes p.locals n b' := by
  rw [h.renamed.order] at hn
  obtain ⟨b, start, hp⟩ := h.laid.mem_order_iff.1 hn
  obtain ⟨c, hc, hr⟩ := h.renamed.block? (FlowGraph.block?_of_mem hp.mem)
  rw [hb'] at hc
  cases hc
  exact ⟨h.mem_locals_of_imports hp hr, fun hcs _ hc => h.contributor_unmentioned hp hcs hc⟩

/-- **Everything that a successful conversion counts, reports and writes into its journal.** -/
theorem convert_account {config : Config} {schedule : Schedule} {p : Program τ} {stats : Stats}
    (h : (convert config schedule p).outcome = .ok stats) :
    ∃ g ds deeds, Account p g ds deeds stats (convert config schedule p) := by
  obtain ⟨g, g', r, r', hbuild, hrename, hemit, rfl, hevents, hjournal⟩ := convert_steps h
  have hlaid := FlowGraph.build_laid hbuild
  obtain ⟨hto, names, hnames, horigins, hadv⟩ := Run.renameBlocks_ok hbuild hrename
  have hminting : Run.Minting p.locals r := hadv.minting ⟨[], .nil _⟩
  have hnaming : Naming p g g' names :=
    ⟨hbuild, hto, hnames, horigins, fun x hx => hadv.supply.not_mem hx⟩
  obtain ⟨deeds, hdoes, hleft⟩ := Run.emitBlocks_does (hto.order ▸ hlaid.nodup_order) hminting
    (fun n hn b hb => hnaming.distinguishes hn hb) hemit
  obtain ⟨-, -, s, ds, -, -, -, rfl⟩ := Run.renameBlocks_steps hbuild hrename
  have hlength : ds.length = names.length := by
    have := congrArg List.length hadv.events
    simpa [Run.onceBuilt] using this
  refine ⟨g, ds, deeds, hbuild, ?_, ?_,
    ⟨(config.scheduleFor schedule g.reachedCount).isParallel, g'.reachedCount, ?_⟩, hdoes.stats,
    hleft.trans hnaming.ncard_unsuppliedSites⟩
  · rw [hlength, ← List.length_map (f := (·.2)), horigins, length_destinations_eq_countP,
      Array.countP_toList, Program.assignmentCount]
  · rw [hevents, hdoes.events]
    simp [Run.onceBuilt]
  · rw [hjournal, Array.toList_push, hdoes.journal]
    simp [Run.onceBuilt]

namespace Account

variable {p : Program τ} {g : FlowGraph τ} {ds : List (Local × Local)} {deeds : List (Deed τ)}
  {stats : Stats} {c : Conversion τ}

/-- The events of definitions are about nothing else. -/
theorem filterMap_eq (h : Account p g ds deeds stats c) {β : Type} (f : Event τ → Option β)
    (hf : ∀ x y, f (.unalias x y) = none) :
    c.recorded.events.toList.filterMap f = (deeds.flatMap Deed.events).filterMap f := by
  rw [Conversion.events_recorded, h.events, List.filterMap_append, List.filterMap_map,
    List.filterMap_eq_nil_iff.2 fun d _ => hf d.1 d.2, List.nil_append]

theorem phis (h : Account p g ds deeds stats c) :
    c.recorded.phis = deeds.filterMap Deed.phi? := by
  rw [Recorder.phis_eq, h.filterMap_eq _ fun _ _ => rfl, Deed.filterMap_phi?_events]

theorem instructions (h : Account p g ds deeds stats c) :
    c.recorded.instructions = deeds.filterMap Deed.instruction? := by
  rw [Recorder.instructions_eq, h.filterMap_eq _ fun _ _ => rfl,
    Deed.filterMap_instruction?_events]

/-- Definitions and phis have a fresh local each. -/
theorem length_unaliases (h : Account p g ds deeds stats c) :
    c.recorded.unaliases.length = ds.length + c.recorded.phis.length := by
  have hdeeds : (deeds.flatMap Deed.events).filterMap Event.unalias? =
      (deeds.filterMap Deed.phi?).map fun φ => (φ.result, φ.origin) := by
    rw [List.filterMap_flatMap, List.map_filterMap, List.filterMap_eq_flatMap_toList]
    refine List.flatMap_congr fun d _ => ?_
    cases d <;> rfl
  rw [Recorder.unaliases, Conversion.events_recorded, h.events, List.filterMap_append, hdeeds,
    List.filterMap_map, List.length_append, List.length_map, h.phis]
  congr 1
  exact congrArg List.length List.filterMap_some

theorem stats_phis (h : Account p g ds deeds stats c) : stats.phis = c.recorded.phis.length := by
  rw [h.phis, h.stats, Deed.phis_tallyAll]
  exact Nat.zero_add _

theorem stats_unresolvedImports (h : Account p g ds deeds stats c) :
    stats.unresolvedImports = deeds.countP Deed.isLeft := by
  rw [h.stats, Deed.unresolvedImports_tallyAll]
  exact Nat.zero_add _

theorem stats_emitted (h : Account p g ds deeds stats c) (kind : Kind) :
    stats.emitted kind = c.recorded.instructions.countP (·.kind == kind) := by
  have hbefore : Stats.emitted { g.counts with definitions := ds.length } kind = 0 := by
    cases kind <;> rfl
  rw [h.instructions, h.stats, Deed.emitted_tallyAll, hbefore, Nat.zero_add]

/-- What is counted before emission. -/
theorem counted_before (h : Account p g ds deeds stats c) :
    stats.blocks = g.blockCount ∧ stats.reachedBlocks = g.reachedCount ∧
      stats.danglingTargets = g.dangling.size ∧ stats.definitions = ds.length := by
  have hframe : (stats.blocks, stats.reachedBlocks, stats.danglingTargets, stats.definitions) =
      (g.blockCount, g.reachedCount, g.dangling.size, ds.length) := by
    rw [h.stats]
    refine Deed.tallyAll_frame
      (f := fun s => (s.blocks, s.reachedBlocks, s.danglingTargets, s.definitions)) ?_ deeds _
    intro d s
    cases d with
    | left _ _ _ => rfl
    | merged φ => rfl
    | emitted i => cases hkind : i.kind <;> simp [Deed.tally, Stats.countEmitted, hkind]
  simpa only [Prod.mk.injEq] using hframe

end Account

/-- **The statistics of a successful conversion count its phis.** -/
theorem convert_phis_tallied {config : Config} {schedule : Schedule} {p : Program τ}
    {stats : Stats} (h : (convert config schedule p).outcome = .ok stats) :
    stats.phis = (convert config schedule p).recorded.phis.length := by
  obtain ⟨g, ds, deeds, haccount⟩ := convert_account h
  exact haccount.stats_phis

end SingleAssignment
