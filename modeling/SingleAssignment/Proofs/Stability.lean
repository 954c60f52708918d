import SingleAssignment.Proofs.Convert.Account
import SingleAssignment.Proofs.Erasure

/-!
# Conversion of programs that assign each local once

Where each local has at most one assignment, at most one definition reaches a read and nothing has
to be merged.  What a conversion emits is such a program.  Converting it once more gives every
destination a new name and leaves all else as it is.

The argument about the second conversion is one about walks of control.  The emitted program has the
walks of the original one, and each read that names a destination is on a walk from it.  So the
second conversion finds that definition, and no other.

* `Program.AssignsOnce` — each local is the destination of at most one assignment.
* `Recorder.renamed` — the new name of a local.
* `Converted.bijOn_erase` — fresh locals and assigned locals belong together one by one.
* `Program.RenamedBy` — destinations have new names, and nothing else changes.
* `Converted.renamedBy` — **a conversion is no more than that, if definitions reach their reads.**
* `Converted.readsReached_program` — in an emitted program they do.
-/

namespace SingleAssignment

variable {τ : Type}

/-- Each local is the destination of at most one assignment. -/
def Program.AssignsOnce (p : Program τ) : Prop :=
  ∀ x k k', p.Assigns x k → p.Assigns x k' → k = k'

/-- Every assignment reaches every read of its local. -/
def Program.ReadsReached (p : Program τ) : Prop :=
  ∀ x d k i, p.Assigns x d → p.at? k = some i → x ∈ i.operands → p.Reaches x d k

/-- The first new name reported for a local, the local itself if there is none. -/
def Recorder.renamed (r : Recorder τ) (x : Local) : Local :=
  ((r.unaliases.find? fun u => u.2 == x).map (·.1)).getD x

/-- The recorded instructions are those of `p` with new names for the destinations of `p`.  A new name
stands at the definition and at all reads, `p` does not mention it, and all other locals stay. -/
structure Program.RenamedBy (p : Program τ) (r : Recorder τ) : Prop where
  instructions : r.instructions = p.instructions.toList.map (Instruction.mapLocals r.renamed)
  injective : Set.InjOn r.renamed {x | ¬ p.Unmentioned x}
  reported : ∀ x k, p.Assigns x k → (r.renamed x, x) ∈ r.unaliases
  fresh : ∀ x k, p.Assigns x k → p.Unmentioned (r.renamed x)
  other : ∀ x, (∀ k, ¬ p.Assigns x k) → r.renamed x = x

/-- The recorded instructions as a program. -/
def Recorder.program (r : Recorder τ) : Program τ := .ofList r.instructions

theorem Program.assigns_iff {p : Program τ} {x : Local} {k : Nat} :
    p.Assigns x k ↔ destinationAt p.instructions.toList k = some x := by
  rw [destinationAt, Array.getElem?_toList, Option.bind_eq_some_iff]
  rfl

/-- Two definitions of one local cannot meet. -/
theorem Program.AssignsOnce.not_merged {p : Program τ} (hone : p.AssignsOnce) {g : FlowGraph τ}
    {es : List (Emission τ)} {k : Nat} {x : Local} {cs : List Contributor}
    (hm : MergedAt p g es k x cs) : ¬ 2 ≤ cs.length := by
  intro hlen
  obtain ⟨d, d', hne, hd, hd'⟩ := hm.two_definitions hlen
  exact hne (hone x d d' hd.1 hd'.1)

theorem Action.SameUpToDestination.mapDestination_eq {a b : Action} {f : Local → Local}
    (h : a.SameUpToDestination b) (hf : ∀ x y, a = .assign x → b = .assign y → f x = y) :
    a.mapDestination f = b := by
  cases a with
  | assign x =>
      cases b with
      | assign y => rw [mapDestination, hf x y rfl rfl]
      | effect => cases h
      | branch c t => cases h
  | effect => exact h
  | branch c t => exact h

namespace Converted

variable {p : Program τ} {g : FlowGraph τ} {es : List (Emission τ)} {r : Recorder τ}

/-! ## Positions side by side -/

theorem exists_emission (h : Converted p g es r) {k : Nat} {i : Instruction τ}
    (hi : p.at? k = some i) : ∃ e, es[k]? = some e := by
  have hk : k < es.length := by
    rw [h.rendering.length]
    exact (Array.getElem?_eq_some_iff.1 hi).1
  exact ⟨es[k], List.getElem?_eq_getElem hk⟩

theorem exists_instruction (h : Converted p g es r) {k : Nat} {e : Emission τ}
    (he : es[k]? = some e) : ∃ i, p.at? k = some i := by
  have hk : k < p.size := by
    rw [← h.rendering.length]
    exact (List.getElem?_eq_some_iff.1 he).1
  exact ⟨p.instructions[k], Array.getElem?_eq_getElem hk⟩

theorem exists_destination (h : Converted p g es r) {k : Nat} {x : Local} (hx : p.Assigns x k) :
    ∃ y, destinationAt (emittedInstructions es) k = some y := by
  obtain ⟨i, hi, hx⟩ := hx
  obtain ⟨e, he⟩ := h.exists_emission hi
  rw [destinationAt_emission he]
  exact (h.rendering.kept hi he).2.2.exists_destination? hx

theorem exists_assigns (h : Converted p g es r) {k : Nat} {y : Local}
    (hy : destinationAt (emittedInstructions es) k = some y) : ∃ x, p.Assigns x k := by
  have hk : k < es.length := by
    obtain ⟨u, hu, -⟩ := Option.bind_eq_some_iff.1 hy
    simpa [emittedInstructions] using (List.getElem?_eq_some_iff.1 hu).1
  have he := List.getElem?_eq_getElem hk
  obtain ⟨i, hi⟩ := h.exists_instruction he
  rw [destinationAt_emission he] at hy
  have hsome := (h.rendering.kept hi he).2.2.isSome_destination?
  rw [hy, Option.isSome_some] at hsome
  obtain ⟨x, hx⟩ := Option.isSome_iff_exists.1 hsome.symm
  exact ⟨x, i, hi, hx⟩

/-! ## Nothing to merge -/

theorem phis_eq_nil (h : Converted p g es r) (hone : p.AssignsOnce) : r.phis = [] := by
  rw [h.phis, List.flatMap_eq_nil_iff]
  intro e he
  obtain ⟨k, hk⟩ := List.mem_iff_getElem?.1 he
  refine List.eq_nil_iff_forall_not_mem.2 fun φ hφ => ?_
  obtain ⟨i, -, -, -, hmerged, hlen⟩ := h.rendering.phis hk hφ
  exact hone.not_merged hmerged hlen

theorem mem_origins_iff (h : Converted p g es r) {y : Local} :
    y ∈ r.origins ↔ y ∈ r.defined := by
  rw [h.defined_eq, Std.TreeMap.mem_iff_isSome_getElem?, r.origins_eq]
  by_cases hy : y ∈ r.unaliases.map (·.1)
  · obtain ⟨⟨y, x⟩, hu, rfl⟩ := List.mem_map.1 hy
    rw [getElem?_foldl_insert_of_mem _ h.nodup_unaliases hu]
    simp [hy]
  · rw [getElem?_foldl_insert_of_not_mem _ hy]
    simp [hy]

/-- A local that is defined without any merge is the destination of an assignment. -/
theorem exists_of_mem_defined (h : Converted p g es r) (hone : p.AssignsOnce) {y : Local}
    (hy : y ∈ r.defined) :
    ∃ x k, p.Assigns x k ∧ destinationAt (emittedInstructions es) k = some y := by
  rw [Recorder.defined, h.phis_eq_nil hone, List.map_nil, List.append_nil, h.instructions] at hy
  obtain ⟨k, hk⟩ := exists_destinationAt hy
  obtain ⟨x, hx⟩ := h.exists_assigns hk
  exact ⟨x, k, hx, hk⟩

/-- Fresh locals and assigned locals belong together one by one. -/
theorem bijOn_erase (h : Converted p g es r) (hone : p.AssignsOnce) :
    Set.BijOn r.erase {y | y ∈ r.origins} {x | ∃ k, p.Assigns x k} := by
  refine ⟨fun y hy => ?_, fun y hy y' hy' heq => ?_, fun x hx => ?_⟩
  · obtain ⟨x, k, hx, hk⟩ := h.exists_of_mem_defined hone (h.mem_origins_iff.1 hy)
    rw [h.erase_destination hx hk]
    exact ⟨k, hx⟩
  · obtain ⟨x, k, hx, hk⟩ := h.exists_of_mem_defined hone (h.mem_origins_iff.1 hy)
    obtain ⟨x', k', hx', hk'⟩ := h.exists_of_mem_defined hone (h.mem_origins_iff.1 hy')
    rw [h.erase_destination hx hk, h.erase_destination hx' hk'] at heq
    subst heq
    rw [hone x k k' hx hx'] at hk
    exact Option.some.inj (hk.symm.trans hk')
  · obtain ⟨k, hk⟩ := hx
    obtain ⟨y, hy⟩ := h.exists_destination hk
    refine ⟨y, h.mem_origins_iff.2 ?_, h.erase_destination hk hy⟩
    rw [Recorder.defined, h.instructions]
    exact List.mem_append_left _ (mem_destinations hy)

/-! ## One consistent renaming -/

theorem exists_of_mem_unaliases (h : Converted p g es r) (hone : p.AssignsOnce) {x y : Local}
    (hu : (y, x) ∈ r.unaliases) :
    ∃ k, p.Assigns x k ∧ destinationAt (emittedInstructions es) k = some y := by
  have hnone : es.flatMap Emission.phis = [] := by rw [← h.phis, h.phis_eq_nil hone]
  rw [h.unaliases, hnone, List.map_nil, List.append_nil] at hu
  obtain ⟨k, hx, hy⟩ := exists_of_mem_zip_destinations h.rendering.assigning hu
  exact ⟨k, Program.assigns_iff.2 hx, hy⟩

theorem mem_unaliases (h : Converted p g es r) {x y : Local} {k : Nat} (hx : p.Assigns x k)
    (hy : destinationAt (emittedInstructions es) k = some y) : (y, x) ∈ r.unaliases := by
  rw [h.unaliases]
  exact List.mem_append_left _
    (mem_zip_destinations h.rendering.assigning (Program.assigns_iff.1 hx) hy)

theorem renamed_of_assigns (h : Converted p g es r) (hone : p.AssignsOnce) {x y : Local} {k : Nat}
    (hx : p.Assigns x k) (hy : destinationAt (emittedInstructions es) k = some y) :
    r.renamed x = y := by
  unfold Recorder.renamed
  cases hfind : r.unaliases.find? fun u => u.2 == x with
  | none =>
      have hnot := List.find?_eq_none.1 hfind _ (h.mem_unaliases hx hy)
      simp at hnot
  | some u =>
      obtain ⟨z, x'⟩ := u
      have hx' : x' = x := by simpa using List.find?_some hfind
      subst hx'
      obtain ⟨k', hk', hz⟩ := h.exists_of_mem_unaliases hone (List.mem_of_find?_eq_some hfind)
      rw [hone x' k' k hk' hx] at hz
      exact Option.some.inj (hz.symm.trans hy)

theorem renamed_of_not_assigned (h : Converted p g es r) (hone : p.AssignsOnce) {x : Local}
    (hx : ∀ k, ¬ p.Assigns x k) : r.renamed x = x := by
  unfold Recorder.renamed
  have hfind : (r.unaliases.find? fun u => u.2 == x) = none := by
    refine List.find?_eq_none.2 fun u hu heq => ?_
    obtain ⟨y, x'⟩ := u
    obtain rfl : x' = x := by simpa using heq
    obtain ⟨k, hk, -⟩ := h.exists_of_mem_unaliases hone hu
    exact hx k hk
  rw [hfind]
  rfl

/-- A new name is not a local of the program. -/
theorem renamed_not_local (h : Converted p g es r) (hone : p.AssignsOnce) {x : Local} {k : Nat}
    (hx : p.Assigns x k) : r.renamed x ∉ p.locals := by
  obtain ⟨y, hy⟩ := h.exists_destination hx
  rw [h.renamed_of_assigns hone hx hy]
  exact h.destination_not_local hy

theorem injOn_renamed (h : Converted p g es r) (hone : p.AssignsOnce) :
    Set.InjOn r.renamed {x | x ∈ p.locals} := by
  intro x hx x' hx' heq
  by_cases ha : ∃ k, p.Assigns x k
  · obtain ⟨k, hk⟩ := ha
    by_cases ha' : ∃ k', p.Assigns x' k'
    · obtain ⟨k', hk'⟩ := ha'
      obtain ⟨y, hy⟩ := h.exists_destination hk
      obtain ⟨y', hy'⟩ := h.exists_destination hk'
      rw [h.renamed_of_assigns hone hk hy, h.renamed_of_assigns hone hk' hy'] at heq
      subst heq
      obtain rfl := h.destinationAt_injective hy hy'
      rw [Program.assigns_iff] at hk hk'
      exact Option.some.inj (hk.symm.trans hk')
    · have hsame := h.renamed_of_not_assigned hone (not_exists.1 ha')
      refine absurd ?_ (h.renamed_not_local hone hk)
      rw [heq, hsame]
      exact hx'
  · have hsame := h.renamed_of_not_assigned hone (not_exists.1 ha)
    by_cases ha' : ∃ k', p.Assigns x' k'
    · obtain ⟨k', hk'⟩ := ha'
      refine absurd ?_ (h.renamed_not_local hone hk')
      rw [← heq, hsame]
      exact hx
    · rw [← hsame, heq, h.renamed_of_not_assigned hone (not_exists.1 ha')]

/-- What a read becomes is the new name of its local. -/
theorem renamed_read (h : Converted p g es r) (hone : p.AssignsOnce) (hreach : p.ReadsReached)
    {k : Nat} {i : Instruction τ} {x y : Local} (hi : p.at? k = some i) (hx : x ∈ i.operands)
    (hread : ReadAt p g es k x y) : r.renamed x = y := by
  cases hread with
  | unresolved hnone =>
      refine h.renamed_of_not_assigned hone fun d hd => ?_
      exact hnone d ⟨hd, hreach x d k i hd hi hx⟩
  | @single d y hd hy => exact h.renamed_of_assigns hone ((hd d).2 rfl).1 hy
  | merged _ _ _ _ hmerged hlen _ => exact absurd hlen (hone.not_merged hmerged)

theorem instruction_renamed (h : Converted p g es r) (hone : p.AssignsOnce)
    (hreach : p.ReadsReached) {k : Nat} {i : Instruction τ} {e : Emission τ}
    (hi : p.at? k = some i) (he : es[k]? = some e) : i.mapLocals r.renamed = e.instruction := by
  obtain ⟨hoffset, htag, hsame⟩ := h.rendering.kept hi he
  have hoperands : i.operands.map r.renamed = e.instruction.operands := by
    have hreads := (List.forall₂_and_left _ _).2
      ⟨fun x (hx : x ∈ i.operands) => hx, h.rendering.operands hi he⟩
    rw [← List.forall₂_eq_eq_eq, List.forall₂_map_left_iff]
    exact hreads.imp fun x y hxy => h.renamed_read hone hreach hi hxy.1 hxy.2
  have haction : i.action.mapDestination r.renamed = e.instruction.action := by
    refine hsame.mapDestination_eq fun x y hx hy => ?_
    refine h.renamed_of_assigns hone ⟨i, hi, by rw [Instruction.destination?, hx]⟩ ?_
    rw [destinationAt_emission he, Instruction.destination?, hy]
  rw [Instruction.mapLocals, hoperands, haction, ← hoffset, ← htag]

/-- If each local is assigned once and the assignment reaches all reads, conversion is one
consistent renaming. -/
theorem instructions_renamed (h : Converted p g es r) (hone : p.AssignsOnce)
    (hreach : p.ReadsReached) :
    r.instructions = p.instructions.toList.map (Instruction.mapLocals r.renamed) := by
  rw [h.instructions, emittedInstructions]
  refine List.ext_getElem? fun k => ?_
  rw [List.getElem?_map, List.getElem?_map, show p.instructions.toList[k]? = p.at? k from
    Array.getElem?_toList]
  cases hi : p.at? k with
  | none =>
      cases he : es[k]? with
      | none => rfl
      | some e =>
          obtain ⟨i, hi'⟩ := h.exists_instruction he
          rw [hi] at hi'
          cases hi'
  | some i =>
      obtain ⟨e, he⟩ := h.exists_emission hi
      rw [he, Option.map_some, Option.map_some, h.instruction_renamed hone hreach hi he]

theorem renamedBy (h : Converted p g es r) (hone : p.AssignsOnce) (hreach : p.ReadsReached) :
    p.RenamedBy r := by
  refine ⟨h.instructions_renamed hone hreach, ?_, fun x k hx => ?_, fun x k hx => ?_,
    fun x hx => h.renamed_of_not_assigned hone hx⟩
  · simp only [Program.unmentioned_iff, not_not]
    exact h.injOn_renamed hone
  · obtain ⟨y, hy⟩ := h.exists_destination hx
    rw [h.renamed_of_assigns hone hx hy]
    exact h.mem_unaliases hx hy
  · exact Program.unmentioned_iff.2 (h.renamed_not_local hone hx)

/-! ## The emitted program -/

theorem at?_program (h : Converted p g es r) (k : Nat) :
    r.program.at? k = es[k]?.map (·.instruction) := by
  rw [Recorder.program, h.instructions, Program.at?, Program.instructions_ofList,
    List.getElem?_toArray, emittedInstructions, List.getElem?_map]

theorem assigns_program_iff (h : Converted p g es r) {y : Local} {k : Nat} :
    r.program.Assigns y k ↔ destinationAt (emittedInstructions es) k = some y := by
  rw [Program.assigns_iff, Recorder.program, h.instructions, Program.instructions_ofList]

theorem assignsOnce_program (h : Converted p g es r) : r.program.AssignsOnce := by
  intro y k k' hk hk'
  exact h.destinationAt_injective (h.assigns_program_iff.1 hk) (h.assigns_program_iff.1 hk')

theorem canFollow_program (h : Converted p g es r) {k m : Nat} (hkm : p.CanFollow k m) :
    r.program.CanFollow k m := by
  obtain ⟨i, j, hi, hj, hflow⟩ := hkm
  obtain ⟨e, he⟩ := h.exists_emission hi
  obtain ⟨f, hf⟩ := h.exists_emission hj
  have hsame := (h.rendering.kept hi he).2.2
  have hoffset := (h.rendering.kept hj hf).1
  refine ⟨e.instruction, f.instruction, by rw [h.at?_program, he]; rfl,
    by rw [h.at?_program, hf]; rfl, ?_⟩
  rw [Instruction.fallsThrough_iff, hsame.branch?_eq, hoffset, ← Instruction.fallsThrough_iff]
  exact hflow

/-- A walk that does not assign a local anew does not assign the name of its definition anew. -/
theorem reaches_program (h : Converted p g es r) {x y : Local} {d k : Nat} (hx : p.Assigns x d)
    (hy : destinationAt (emittedInstructions es) d = some y) (hwalk : p.Reaches x d k) :
    r.program.Reaches y d k := by
  induction hwalk with
  | step hflow => exact .step (h.canFollow_program hflow)
  | tail _ hnot hflow ih =>
      refine .tail ih (fun hm => ?_) (h.canFollow_program hflow)
      -- only the definition itself has this name, and it assigns `x`
      rw [← h.destinationAt_injective hy (h.assigns_program_iff.1 hm)] at hnot
      exact hnot hx

/-- A read that has become the name of a destination is on a walk from it. -/
theorem reaches_read (h : Converted p g es r) {x y : Local} {d k : Nat} (hx : x ∈ p.locals)
    (hread : ReadAt p g es k x y) (hy : destinationAt (emittedInstructions es) d = some y) :
    r.program.Reaches y d k := by
  cases hread with
  | unresolved _ => exact absurd hx (h.destination_not_local hy)
  | @single d' y hd' hy' =>
      obtain rfl := h.destinationAt_injective hy hy'
      obtain ⟨hassigns, hwalk⟩ := (hd' d).2 rfl
      exact h.reaches_program hassigns hy hwalk
  | merged _ he hφ _ _ _ _ => exact absurd rfl (h.destination_ne_result hy (mem_phis he hφ))

theorem readsReached_program (h : Converted p g es r) : r.program.ReadsReached := by
  intro y d k u hd hu hy
  rw [h.at?_program, Option.map_eq_some_iff] at hu
  obtain ⟨e, he, rfl⟩ := hu
  obtain ⟨i, hi⟩ := h.exists_instruction he
  obtain ⟨j, hj, rfl⟩ := List.mem_iff_getElem.1 hy
  have hreads := h.rendering.operands hi he
  have hji : j < i.operands.length := by
    rw [hreads.length_eq]
    exact hj
  refine h.reaches_read (x := i.operands[j]) ?_ (hreads.get hji hj) (h.assigns_program_iff.1 hd)
  exact Program.mem_locals_of_operand hi (List.getElem_mem hji)

end Converted

/-- **Conversion is stable on its own output.**  If each local is assigned once, nothing is merged
and the recorded origins are a bijection from the fresh locals onto the assigned ones.  Every
emitted program is of this kind, and converting it again only gives new names to its
destinations. -/
theorem convert_stable {config : Config} {schedule : Schedule} {p : Program τ} {stats : Stats}
    (h : (convert config schedule p).outcome = .ok stats) :
    (p.AssignsOnce →
      (convert config schedule p).recorded.phis = [] ∧ stats.phis = 0 ∧
      (∀ y, y ∈ (convert config schedule p).recorded.origins ↔
        y ∈ destinations (convert config schedule p).recorded.instructions) ∧
      Set.BijOn (convert config schedule p).recorded.erase
        {y | y ∈ (convert config schedule p).recorded.origins} {x | ∃ k, p.Assigns x k}) ∧
    (convert config schedule p).recorded.program.AssignsOnce ∧
    ∀ (config' : Config) (schedule' : Schedule) (stats' : Stats),
      (convert config' schedule' (convert config schedule p).recorded.program).outcome =
        .ok stats' →
      (convert config' schedule' (convert config schedule p).recorded.program).recorded.phis = [] ∧
        stats'.phis = 0 ∧
        (convert config schedule p).recorded.program.RenamedBy
          (convert config' schedule' (convert config schedule p).recorded.program).recorded := by
  obtain ⟨g, es, hc⟩ := convert_converted h
  refine ⟨fun hone => ?_, hc.assignsOnce_program, fun config' schedule' stats' h' => ?_⟩
  · have hphis := hc.phis_eq_nil hone
    refine ⟨hphis, ?_, fun y => ?_, hc.bijOn_erase hone⟩
    · rw [convert_phis_tallied h, hphis]
      rfl
    · rw [hc.mem_origins_iff, Recorder.defined, hphis, List.map_nil, List.append_nil]
  · obtain ⟨g', es', hc'⟩ := convert_converted h'
    have hphis := hc'.phis_eq_nil hc.assignsOnce_program
    refine ⟨hphis, ?_, hc'.renamedBy hc.assignsOnce_program hc.readsReached_program⟩
    rw [convert_phis_tallied h', hphis]
    rfl

/-- The counting loop is converted with one phi, its converted form with none; there, 2 and 3 are
renamed, while 4 (the phi) and 1 stay. -/
theorem countingLoop_stable :
    (convert {} .sequential countingLoop).recorded.instructions =
      [⟨0, (), [], .assign ⟨2⟩⟩, ⟨1, (), [⟨4⟩, ⟨1⟩], .assign ⟨3⟩⟩, ⟨2, (), [⟨3⟩], .branch true 1⟩] ∧
    ∃ r, r = (convert {} .sequential
        (convert {} .sequential countingLoop).recorded.program).recorded ∧
      (convert {} .sequential countingLoop).recorded.program.RenamedBy r ∧ r.phis = [] ∧
      Set.BijOn r.erase {y | y ∈ r.origins}
        {x | ∃ k, (convert {} .sequential countingLoop).recorded.program.Assigns x k} := by
  have hagain : (convert {} .sequential
      (convert {} .sequential countingLoop).recorded.program).outcome = .ok
        { blocks := 2, reachedBlocks := 2, definitions := 2, unresolvedImports := 2,
          assignments := 2, branches := 1 } := by cbv
  obtain ⟨-, hone, hstable⟩ := convert_stable convert_countingLoop
  obtain ⟨-, -, hrenamed⟩ := hstable {} .sequential _ hagain
  obtain ⟨hphis, -, -, hbij⟩ := (convert_stable hagain).1 hone
  exact ⟨by cbv, _, rfl, hrenamed, hphis, hbij⟩

end SingleAssignment
