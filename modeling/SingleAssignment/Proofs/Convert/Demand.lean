import SingleAssignment.Proofs.Convert.Imports

/-!
# How many locals a conversion needs

A conversion takes one local for each assignment and one for each local that needs a phi in a block.
Its steps are walked through once more, with their cost in place of what they report.

* `Run.draws_renameBlocks` — renaming costs one local for each assignment.
* `Run.draws_emitBlocks` — emission costs one local for each block and each import of the block
  that has several definitions.
-/

namespace SingleAssignment

variable {τ : Type}

namespace Run

variable {used : LocalSet}

/-! ## Steps -/

theorem draws_supplied {α : Type} {x : EStateM Fault Supply α} {c : Nat} {post : α → Prop}
    (h : Draws id used x c post) : Draws Run.supply used (supplied x : RunM τ α) c post := by
  constructor
  · intro n r hr
    obtain ⟨a, s, hx, hs, ha⟩ := h.enough hr
    exact ⟨a, { r with supply := s }, by rw [supplied]; simp only [hx], hs, ha⟩
  · intro n r hr hlt
    obtain ⟨s, hx⟩ := h.short hr hlt
    exact ⟨{ r with supply := s }, by rw [supplied]; simp only [hx]⟩

theorem ofExcept_eq_ok {α : Type} {x : Except Fault α} {a : α} (h : x = .ok a) (r : Run τ) :
    (MonadExcept.ofExcept x : RunM τ α) r = .ok a r := by
  rw [h]
  rfl

theorem draws_report (e : Event τ) : Draws Run.supply used (report e) 0 fun _ => True :=
  .of_ok fun _ => ⟨(), _, rfl, rfl, trivial⟩

theorem draws_log (entry : LogRecord) :
    Draws Run.supply used (log entry : RunM τ Unit) 0 fun _ => True :=
  .of_ok fun _ => ⟨(), _, rfl, rfl, trivial⟩

theorem draws_count (f : Stats → Stats) :
    Draws Run.supply used (count f : RunM τ Unit) 0 fun _ => True :=
  .of_ok fun _ => ⟨(), _, rfl, rfl, trivial⟩

theorem draws_reportDefinitions (ds : List (Local × Local)) :
    Draws Run.supply used (reportDefinitions ds : RunM τ Unit) 0 fun _ => True := by
  induction ds with
  | nil => exact .pure trivial
  | cons d ds ih => exact (draws_report _).bind fun _ _ => ih

/-! ## Renaming -/

/-- The locals reserved for a flow graph are as many as the program has assignments. -/
theorem draws_reserve_order {p : Program τ} {g : FlowGraph τ}
    (h : g.Laid p.labels p.instructions.toList) :
    Draws id used (g.reserve g.order.toList (Array.replicate g.blockCount [])) p.assignmentCount
      fun reserved => ∀ n < g.blockCount, g.Served reserved g.blockCount n := by
  rw [← h.length_destinations]
  have hroom : g.Reservable (Array.replicate g.blockCount ([] : List Local)).size
      g.order.toList := by
    rw [Array.size_replicate]
    exact h.reservable
  exact (FlowGraph.draws_reserve _ hroom).and_run fun _ hok _ n hn => h.served hok hn

/-- **Renaming costs one local for each assignment.** -/
theorem draws_renameBlocks {p : Program τ} {g : FlowGraph τ} {schedule : Schedule}
    (h : FlowGraph.ofProgram p = .ok g) :
    Draws Run.supply p.locals (renameBlocks g schedule) p.assignmentCount
      fun g' => ∃ ds, Naming p g g' ds := by
  have hlaid := FlowGraph.build_laid h
  have hrun : Draws Run.supply p.locals (renameBlocks g schedule) p.assignmentCount
      fun _ => True := by
    rw [renameBlocks_eq h]
    refine (draws_supplied (draws_reserve_order hlaid)).bind (d := 0) fun reserved hreserved => ?_
    obtain ⟨definitions, g', halong⟩ := FlowGraph.exists_renameAlong
      (Array.replicate g.blockCount []) List.nodup_range fun n hn => by
        rw [Array.size_replicate]
        exact hreserved n (List.mem_range.1 hn)
    have hnote : Draws Run.supply p.locals
        (noteParallel schedule.isParallel g.blockCount : RunM τ Unit) 0 fun _ => True := by
      cases schedule.isParallel with
      | true => exact draws_log _
      | false => exact .pure trivial
    rw [halong]
    exact hnote.bind fun _ _ => (draws_reportDefinitions _).bind fun _ _ =>
      (draws_log _).bind fun _ _ => (draws_count _).bind fun _ _ => .pure trivial
  refine hrun.and_run fun hholds hok _ => ?_
  obtain ⟨hto, ds, hnames, horigins, hadv⟩ := renameBlocks_ok h hok
  exact ⟨ds, h, hto, hnames, horigins, fun x hx => hholds.not_mem hadv.supply hx⟩

/-- Nothing is reported if the locals do not last for the assignments. -/
theorem renameBlocks_short {p : Program τ} {g : FlowGraph τ} {schedule : Schedule} {r : Run τ}
    {n : Nat} (h : g.Laid p.labels p.instructions.toList) (hholds : r.supply.Holds p.locals n)
    (hlt : n < p.assignmentCount) :
    ∃ r', renameBlocks g schedule r = .error .localsExhausted r' ∧ r'.events = r.events := by
  obtain ⟨s, hs⟩ := (draws_reserve_order h).short (s := r.supply) hholds hlt
  refine ⟨{ r with supply := s }, Outcome.run_bind_error ?_ _, rfl⟩
  rw [supplied]
  simp only [hs]

end Run

/-! ## Emission -/

namespace Run

variable {used : LocalSet} {g : FlowGraph τ} {n : Node} {b : Block τ} {offset : Offset}
  {done : List Local} {m : LocalMap}

theorem draws_resolveImport {x : Local} {cs : List Contributor}
    (hcs : g.reachingDefinitions n x = .ok cs) :
    Draws Run.supply used (resolveImport g n offset x) (if 2 ≤ cs.length then 1 else 0)
      fun _ => True := by
  refine .of_answer (ofExcept_eq_ok hcs) ?_
  clear hcs
  match cs with
  | [] => exact (draws_count _).bind fun _ _ => .pure trivial
  | [c] => exact .pure trivial
  | c :: d :: cs =>
      rw [if_pos (by simp)]
      exact (draws_supplied Supply.draws_fresh).bind fun _ _ => (draws_report _).bind fun _ _ =>
        (draws_log _).bind fun _ _ => (draws_report _).bind fun _ _ =>
          (draws_count _).bind fun _ _ => .pure trivial

theorem draws_noteUnresolved (x y : Local) :
    Draws Run.supply used (noteUnresolved b offset x y) 0 fun _ => True := by
  unfold noteUnresolved
  split
  · exact draws_log _
  · exact .pure trivial

theorem draws_resolveOperand (hsearch : ∀ x, ∃ cs, g.reachingDefinitions n x = .ok cs)
    (hm : TableOf b done m) (x : Local) :
    Draws Run.supply used (resolveOperand g n b offset m x)
      (b.NewImports (g.FindsSeveral n) done [x]).ncard
        fun out => TableOf b (done ++ [x]) out.2 := by
  have hcost : Draws Run.supply used (resolveOperand g n b offset m x)
      (b.NewImports (g.FindsSeveral n) done [x]).ncard fun _ => True := by
    rw [resolveOperand]
    by_cases himports : b.imports x = true
    · rw [if_pos himports]
      cases hx : m[x]? with
      | some y =>
          rw [Block.ncard_newImports_eq_zero fun h => h.1 (hm.mem_done hx)]
          exact .pure trivial
      | none =>
          have hdone := hm.not_mem_done himports hx
          obtain ⟨cs, hcs⟩ := hsearch x
          refine ((draws_resolveImport hcs).bind (d := 0) fun y _ =>
            (draws_noteUnresolved x y).bind fun _ _ => .pure trivial).of_eq ?_
          split
          · rename_i hlen
            exact (Block.ncard_newImports_eq_one hdone himports ⟨cs, hcs, hlen⟩).symm
          · rename_i hlen
            refine (Block.ncard_newImports_eq_zero ?_).symm
            rintro ⟨-, -, cs', hcs', hlen'⟩
            rw [hcs] at hcs'
            cases hcs'
            exact hlen hlen'
    · rw [if_neg himports, Block.ncard_newImports_eq_zero fun h => himports h.2.1]
      exact .pure trivial
  refine hcost.and_run fun _ hok _ => ?_
  obtain ⟨φs, hres, -⟩ := resolveOperand_ok hok
  exact hm.resolves hres

theorem draws_resolveOperands (hsearch : ∀ x, ∃ cs, g.reachingDefinitions n x = .ok cs)
    (hm : TableOf b done m) (xs : List Local) :
    Draws Run.supply used (resolveOperands g n b offset m xs)
      (b.NewImports (g.FindsSeveral n) done xs).ncard fun out => TableOf b (done ++ xs) out.2 := by
  induction xs generalizing done m with
  | nil =>
      rw [Block.ncard_newImports_nil, List.append_nil]
      exact .pure hm
  | cons x xs ih =>
      rw [← List.singleton_append, Block.ncard_newImports_append, ← List.append_assoc]
      refine (draws_resolveOperand hsearch hm x).bind fun out hout => ?_
      exact (ih hout).bind (d := 0) fun _ hrest => .pure hrest

theorem draws_emitInstructions (hsearch : ∀ x, ∃ cs, g.reachingDefinitions n x = .ok cs)
    (hm : TableOf b done m) (is : List (Instruction τ)) :
    Draws Run.supply used (emitInstructions g n b m is)
      (b.NewImports (g.FindsSeveral n) done (is.flatMap (·.operands))).ncard fun _ => True := by
  induction is generalizing done m with
  | nil =>
      rw [List.flatMap_nil, Block.ncard_newImports_nil]
      exact .pure trivial
  | cons i is ih =>
      rw [List.flatMap_cons, Block.ncard_newImports_append]
      refine (draws_resolveOperands hsearch hm i.operands).bind fun out hout => ?_
      refine ((draws_count _).bind fun _ _ => (draws_report _).bind fun _ _ => ih hout).of_eq ?_
      omega

/-- **Emission costs one local for each import of a block that has several definitions.** -/
theorem draws_emitBlocks (hsearch : ∀ n x, ∃ cs, g.reachingDefinitions n x = .ok cs)
    {ns : List Node} (hnd : ns.Nodup) (hblock : ∀ n ∈ ns, ∃ b, g.block? n = some b) :
    Draws Run.supply used (emitBlocks g ns) (g.importSites g.FindsSeveral ns).ncard
      fun _ => True := by
  induction ns with
  | nil =>
      rw [FlowGraph.ncard_importSites_nil]
      exact .pure trivial
  | cons n ns ih =>
      obtain ⟨b, hb⟩ := hblock n List.mem_cons_self
      obtain ⟨hnotin, hnd⟩ := List.nodup_cons.1 hnd
      rw [FlowGraph.ncard_importSites_cons hnotin, FlowGraph.importsAt_eq hb]
      refine .of_answer (FlowGraph.blockOf_eq_ok hb _) ?_
      exact (draws_emitInstructions (hsearch n) tableOf_empty _).bind fun _ _ =>
        ih hnd fun m hm => hblock m (List.mem_cons_of_mem n hm)

end Run

end SingleAssignment
