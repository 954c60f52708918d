import SingleAssignment.Proofs.Simulation

/-!
# Incoming values of locals

Control can arrive at a read on a walk that does not assign the local, and then the read sees the
value that the local had before the program.  Conversion names definitions only.  So the read keeps
its local iff no definition reaches it on any walk; one definition that reaches on another walk is
enough to take the place of the incoming value, and no phi has the local itself as a contributor.
-/

namespace SingleAssignment

variable {τ : Type}

/-- Control has come to position `k` over the positions `ps`, and none of them assigns `x`. -/
def Program.ArrivesUnassigned (p : Program τ) (x : Local) (ps : List Nat) (k : Nat) : Prop :=
  p.Path ps k ∧ ∀ q ∈ ps, ¬ p.Assigns x q

namespace Converted

variable {p : Program τ} {g : FlowGraph τ} {es : List (Emission τ)} {r : Recorder τ} {k : Nat}
  {x y : Local}

/-- The names that a phi merges are new. -/
theorem value_not_local (h : Converted p g es r) {e : Emission τ} {φ : Phi} {c : Contributor}
    (he : es[k]? = some e) (hφ : φ ∈ e.phis) (hc : c ∈ φ.contributors) : c.value ∉ p.locals := by
  obtain ⟨i, -, -, -, hmerged, -⟩ := h.rendering.phis he hφ
  obtain ⟨ds, -, -, hnames⟩ := hmerged.names
  have hmem : some c.value ∈ φ.contributors.map fun c => some c.value :=
    List.mem_map_of_mem hc
  rw [← hnames] at hmem
  obtain ⟨d, -, hd⟩ := List.mem_map.1 hmem
  exact h.destination_not_local hd

/-- A read keeps its local iff no definition reaches it. -/
theorem read_eq_iff (h : Converted p g es r) (hx : x ∈ p.locals) (hread : ReadAt p g es k x y) :
    y = x ↔ ∀ d, ¬ p.ReachingDefinition x d k := by
  cases hread with
  | unresolved hnone => exact ⟨fun _ => hnone, fun _ => rfl⟩
  | @single d y hone hy =>
      refine ⟨fun heq => ?_, fun hnone => absurd ((hone d).2 rfl) (hnone d)⟩
      rw [heq] at hy
      exact absurd hx (h.destination_not_local hy)
  | @merged w e φ _ he hφ _ hmerged hlen _ =>
      obtain ⟨d, -, -, hd, -⟩ := hmerged.two_definitions hlen
      refine ⟨fun heq => ?_, fun hnone => absurd hd (hnone d)⟩
      exact absurd (heq ▸ hx) (h.result_not_local (mem_phis he hφ))

/-- A read that does not keep its local names definitions that reach it, and only those. -/
theorem read_of_ne (h : Converted p g es r) (hread : ReadAt p g es k x y) (hne : y ≠ x) :
    (∃ d, (∀ d', p.ReachingDefinition x d' k ↔ d' = d) ∧
      destinationAt (emittedInstructions es) d = some y) ∨
    ∃ φ ∈ r.phis, φ.result = y ∧ φ.origin = x ∧ ∃ ds : List Nat, ds.Nodup ∧
      (∀ d, d ∈ ds ↔ p.ReachingDefinition x d k) ∧
      ds.map (destinationAt (emittedInstructions es)) =
        φ.contributors.map fun c => some c.value := by
  cases hread with
  | unresolved _ => exact absurd rfl hne
  | single hone hy => exact .inl ⟨_, hone, hy⟩
  | @merged w e φ _ he hφ ho hmerged _ _ =>
      refine .inr ⟨φ, ?_, rfl, ho, hmerged.names⟩
      rw [h.phis]
      exact mem_phis he hφ

end Converted

/-- **Incoming values are kept where no definition reaches.**  Let control come to position `k` over
the positions `ps`, none of which assigns `x`.  A read of `x` at `k` keeps `x` iff no
definition of `x` reaches `k` on any walk.  Else it takes the destination of the only definition
that reaches, or the result of a phi of all that do.  None of them is on this walk, and `x` itself
is the value of no contributor of any phi. -/
theorem convert_keeps_incoming {config : Config} {schedule : Schedule} {p : Program τ}
    {stats : Stats} (h : (convert config schedule p).outcome = .ok stats) {k j : Nat}
    {i : Instruction τ} {x : Local} (hi : p.at? k = some i) (hx : i.operands[j]? = some x)
    {ps : List Nat} (hwalk : p.ArrivesUnassigned x ps k) :
    ∃ u y, (convert config schedule p).recorded.instructions[k]? = some u ∧
      u.operands[j]? = some y ∧
      (y = x ↔ ∀ d, ¬ p.ReachingDefinition x d k) ∧
      (y ≠ x →
        (∃ d, d ∉ ps ∧ (∀ d', p.ReachingDefinition x d' k ↔ d' = d) ∧
          destinationAt (convert config schedule p).recorded.instructions d = some y) ∨
        ∃ φ ∈ (convert config schedule p).recorded.phis, φ.result = y ∧ φ.origin = x ∧
          ∃ ds : List Nat, ds.Nodup ∧ (∀ d, d ∈ ds ↔ p.ReachingDefinition x d k) ∧
            (∀ d ∈ ds, d ∉ ps) ∧
            ds.map (destinationAt (convert config schedule p).recorded.instructions) =
              φ.contributors.map fun c => some c.value) ∧
      ∀ φ ∈ (convert config schedule p).recorded.phis, x ∉ φ.contributors.map (·.value) := by
  obtain ⟨g, es, hc⟩ := convert_converted h
  rw [hc.instructions]
  have hlocal : x ∈ p.locals := Program.mem_locals_of_operand hi (List.mem_of_getElem? hx)
  have hk : k < es.length := by
    rw [hc.rendering.length]
    exact (Array.getElem?_eq_some_iff.1 hi).1
  have he : es[k]? = some es[k] := List.getElem?_eq_getElem hk
  have hops := hc.rendering.operands hi he
  obtain ⟨hj, rfl⟩ := List.getElem?_eq_some_iff.1 hx
  have hju : j < es[k].instruction.operands.length := by
    rw [← hops.length_eq]
    exact hj
  have hread : ReadAt p g es k i.operands[j] es[k].instruction.operands[j] := hops.get hj hju
  -- what reaches is assigned there, so it is not among the positions of the walk
  have hoff : ∀ d, p.ReachingDefinition i.operands[j] d k → d ∉ ps :=
    fun d hd hin => hwalk.2 d hin hd.1
  refine ⟨es[k].instruction, es[k].instruction.operands[j], ?_, List.getElem?_eq_getElem hju,
    hc.read_eq_iff hlocal hread, fun hne => ?_, fun φ hφ hin => ?_⟩
  · rw [emittedInstructions, List.getElem?_map, he]
    rfl
  · rcases hc.read_of_ne hread hne with ⟨d, hone, hd⟩ | ⟨φ, hφ, hres, ho, ds, hnd, hmem, hnames⟩
    · exact .inl ⟨d, hoff d ((hone d).2 rfl), hone, hd⟩
    · exact .inr ⟨φ, hφ, hres, ho, ds, hnd, hmem, fun d hd => hoff d ((hmem d).1 hd), hnames⟩
  · rw [hc.phis] at hφ
    obtain ⟨e, hmem, hφ⟩ := List.mem_flatMap.1 hφ
    obtain ⟨q, hq⟩ := List.mem_iff_getElem?.1 hmem
    obtain ⟨c, hcs, hvalue⟩ := List.mem_map.1 hin
    exact hc.value_not_local hq hφ hcs (hvalue ▸ hlocal)

/-! ## A definition on one of two walks -/

/-- Assign local 1 or skip the assignment, then read the local. -/
def skippedAssignment : Program Unit :=
  .ofList [⟨0, (), [], .branch true 2⟩, ⟨1, (), [], .assign ⟨1⟩⟩, ⟨2, (), [⟨1⟩], .effect⟩]

theorem convert_skippedAssignment :
    (convert {} .sequential skippedAssignment).outcome = .ok
      { blocks := 3, reachedBlocks := 3, definitions := 1, assignments := 1, statements := 1,
        branches := 1 } := by
  cbv

/-- The walk that skips the assignment. -/
theorem skippedAssignment_arrives : skippedAssignment.ArrivesUnassigned ⟨1⟩ [0] 2 :=
  ⟨.step ⟨_, _, rfl, rfl, .inr ⟨true, rfl⟩⟩ .start, by decide⟩

/-- Control can arrive at the read of local 1 without passing its assignment, but the emitted read
is not local 1 and not the result of a phi that has local 1 as a contributor. -/
theorem skippedAssignment_loses_incoming :
    ∃ stats i u y, (convert {} .sequential skippedAssignment).outcome = .ok stats ∧
      skippedAssignment.ArrivesUnassigned ⟨1⟩ [0] 2 ∧
      skippedAssignment.at? 2 = some i ∧ i.operands[0]? = some ⟨1⟩ ∧
      (convert {} .sequential skippedAssignment).recorded.instructions[2]? = some u ∧
      u.operands[0]? = some y ∧
      ¬ (y = ⟨1⟩ ∨ ∃ φ ∈ (convert {} .sequential skippedAssignment).recorded.phis,
        φ.result = y ∧ ⟨1⟩ ∈ φ.contributors.map (·.value)) := by
  have hread : (convert {} .sequential skippedAssignment).recorded.instructions[2]? =
      some ⟨2, (), [⟨2⟩], .effect⟩ := by cbv
  have hphis : (convert {} .sequential skippedAssignment).recorded.phis = [] := by cbv
  refine ⟨_, _, _, ⟨2⟩, convert_skippedAssignment, skippedAssignment_arrives, rfl, rfl, hread, rfl,
    ?_⟩
  rw [hphis]
  rintro (heq | ⟨φ, hφ, -⟩)
  · exact absurd heq (by decide)
  · cases hφ

/-- The read behind the skipped assignment takes the name of that assignment, which is not on the
walk. -/
theorem skippedAssignment_keeps_incoming :
    ∃ u y d, (convert {} .sequential skippedAssignment).recorded.instructions[2]? = some u ∧
      u.operands[0]? = some y ∧ y ≠ ⟨1⟩ ∧ d ∉ [0] ∧
      destinationAt (convert {} .sequential skippedAssignment).recorded.instructions d =
        some y := by
  have hreaches : skippedAssignment.ReachingDefinition ⟨1⟩ 1 2 :=
    ⟨by decide, .step ⟨_, _, rfl, rfl, .inl ⟨rfl, rfl⟩⟩⟩
  obtain ⟨u, y, hu, hy, hiff, hother, -⟩ := convert_keeps_incoming convert_skippedAssignment
    (k := 2) (j := 0) rfl rfl skippedAssignment_arrives
  have hne : y ≠ ⟨1⟩ := fun heq => hiff.1 heq 1 hreaches
  rcases hother hne with ⟨d, hd, -, hdest⟩ | ⟨φ, hφ, -⟩
  · exact ⟨u, y, d, hu, hy, hne, hd, hdest⟩
  · have hphis : (convert {} .sequential skippedAssignment).recorded.phis = [] := by cbv
    rw [hphis] at hφ
    cases hφ

end SingleAssignment
