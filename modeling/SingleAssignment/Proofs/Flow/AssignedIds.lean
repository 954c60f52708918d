import SingleAssignment.Proofs.Flow.Exposure
import SingleAssignment.Proofs.Flow.Renaming

/-!
# Which id stands where in a renamed block

The assignments of a block are numbered from above, and the ids of a reservation are handed out in
that order.  So a renamed block can be read off the block it comes from and the list of ids alone:
each id is known by the number of its assignment.  Nothing is asked of the ids; they may repeat, and
they may be locals of the block.

* `Block.numberAt` — the number of an assignment.
* `Block.RenamedWith` — a renamed block beside the block it comes from and the ids.
* `Block.rename_numbered` — **with one id for each assignment renaming succeeds, and every id stands
  where its number says.**
-/

namespace SingleAssignment

variable {τ : Type}

/-! ## Numbers of assignments -/

/-- The number of assignments above place `l`, which is the number of the assignment at `l`. -/
def Block.numberAt (b : Block τ) (l : Nat) : Nat :=
  (b.instructions.toList.take l).countP Instruction.isAssignment

/-- The destination at a place is the one that its number gives. -/
theorem getElem?_destinations_countP {is : List (Instruction τ)} {l : Nat} {i : Instruction τ}
    {y : Local} (hi : is[l]? = some i) (hy : i.destination? = some y) :
    (destinations is)[(is.take l).countP Instruction.isAssignment]? = some y := by
  obtain ⟨hl, rfl⟩ := List.getElem?_eq_some_iff.1 hi
  have hsplit : destinations is =
      destinations (is.take l) ++ y :: destinations (is.drop (l + 1)) := by
    conv_lhs => rw [← List.take_append_drop l is, List.drop_eq_getElem_cons hl]
    rw [destinations_append, destinations_cons, hy]
    rfl
  rw [hsplit, ← length_destinations_eq_countP, List.getElem?_append_right (Nat.le_refl _),
    Nat.sub_self, List.getElem?_cons_zero]

theorem Block.Assigns.numberAt_lt {b : Block τ} {x : Local} {l : Nat} (h : b.Assigns x l) :
    b.numberAt l < b.assignmentCount := by
  obtain ⟨i, hi, hx⟩ := h
  rw [← Array.getElem?_toList] at hi
  rw [← b.length_destinations]
  exact (List.getElem?_eq_some_iff.1 (getElem?_destinations_countP hi hx)).1

namespace Block.RenamedTo

variable {b b' : Block τ}

/-- Renaming keeps the assignments where they are, so they keep their numbers. -/
theorem numberAt_eq (h : b.RenamedTo b') (l : Nat) : b'.numberAt l = b.numberAt l := by
  have hkinds : b'.instructions.toList.map Instruction.isAssignment =
      b.instructions.toList.map Instruction.isAssignment := by
    refine List.ext_getElem (by simp [h.size]) fun q hq hq' => ?_
    simp only [List.length_map, Array.length_toList] at hq hq'
    have hkept := h.kept (Array.getElem?_eq_getElem hq') (Array.getElem?_eq_getElem hq)
    simpa [Instruction.isAssignment] using hkept.2.2.2.isSome_destination?
  have hcount : ∀ is : List (Instruction τ), (is.take l).countP Instruction.isAssignment =
      ((is.map Instruction.isAssignment).take l).countP id := by
    intro is
    rw [← List.map_take, List.countP_map]
    rfl
  unfold numberAt
  rw [hcount, hcount, hkinds]

/-- **The assignment at a place takes the id of its number.** -/
theorem destination_eq (h : b.RenamedTo b') {ids : List Local}
    (hids : destinations b'.instructions.toList = ids) {x : Local} {l : Nat} {r : Instruction τ}
    (ha : b.Assigns x l) (hr : b'.instructions[l]? = some r) :
    r.destination? = ids[b.numberAt l]? := by
  obtain ⟨r', y, hr', hy, -⟩ := h.renamed_assignment ha
  obtain rfl : r = r' := Option.some.inj (hr.symm.trans hr')
  rw [hy, ← hids, ← h.numberAt_eq]
  rw [← Array.getElem?_toList] at hr
  exact (getElem?_destinations_countP hr hy).symm

end Block.RenamedTo

/-! ## Imports -/

theorem Block.rename_run {ids : List Local} {b b' : Block τ} {ds : List (Local × Local)}
    (h : Block.rename ids b = .ok ds b') :
    ∃ s, RenamedRun {} b.instructions.toList b'.instructions.toList s ∧
      b'.imported = s.imported := by
  unfold Block.rename at h
  simp only at h
  split at h
  · cases h
  · cases h
  · rename_i hleft
    cases h
    exact ⟨_, by simpa [Block.setBorders] using (renameFrom_run hleft).1, rfl⟩

/-- **A block imports the locals of its exposed reads.** -/
theorem Block.rename_imports {ids : List Local} {b b' : Block τ} {ds : List (Local × Local)}
    (h : Block.rename ids b = .ok ds b') (x : Local) :
    b'.imports x = true ↔ ∃ l j, b.Exposed x l j := by
  have hto := (Block.rename_ok h).1
  constructor
  · intro hx
    obtain ⟨s, hrun, himported⟩ := Block.rename_run h
    unfold imports at hx
    rw [himported] at hx
    rcases (hrun.imported x).1 (Std.TreeSet.mem_iff_contains.2 hx) with hx | ⟨l, i, hi, hx, hname⟩
    · simp at hx
    · obtain ⟨j, hj⟩ := List.mem_iff_getElem?.1 hx
      rw [Array.getElem?_toList] at hi
      refine ⟨l, j, ⟨i, hi, hj⟩, ?_⟩
      -- an assignment above would have given the local a name
      rcases b.last_below x l with hno | ⟨l', hl', ha, hno⟩
      · exact hno
      · obtain ⟨r, y, hr, hy, -⟩ := hto.renamed_assignment ha
        rw [show ({} : Scope).exported[x]? = none by simp, lastName_take_eq hl' ha hno hr, hy] at hname
        cases hname
  · rintro ⟨l, j, ⟨i, hi, hj⟩, hno⟩
    have hlt : l < b'.instructions.size := by
      rw [hto.size]
      exact (Array.getElem?_eq_some_iff.1 hi).1
    exact (hto.outside hi (Array.getElem?_eq_getElem hlt) hj hno).2

/-! ## The renamed block -/

/-- A renamed block beside the block it comes from and the ids of its assignments. -/
structure Block.RenamedWith (ids : List Local) (b b' : Block τ) : Prop where
  offset : b'.offset = b.offset
  size : b'.size = b.size
  /-- All but the names of locals stays as it is. -/
  kept : ∀ {l : Nat} {i r : Instruction τ}, b.instructions[l]? = some i →
    b'.instructions[l]? = some r → r.offset = i.offset ∧ r.tag = i.tag ∧ r.kind = i.kind ∧
      r.operands.length = i.operands.length ∧ r.branch? = i.branch?
  /-- There is an id for each number. -/
  numbered : ∀ {l : Nat} {x : Local}, b.Assigns x l → b.numberAt l < ids.length
  /-- An assignment writes the id of its number. -/
  destination : ∀ {l : Nat} {r : Instruction τ} {x : Local}, b.Assigns x l →
    b'.instructions[l]? = some r → r.destination? = ids[b.numberAt l]?
  /-- A read behind assignments to its local reads the id of the last one above it. -/
  inside : ∀ {l l' j : Nat} {i r : Instruction τ} {x : Local}, b.instructions[l]? = some i →
    b'.instructions[l]? = some r → i.operands[j]? = some x → l' < l → b.Assigns x l' →
    (∀ q, l' < q → q < l → ¬ b.Assigns x q) → r.operands[j]? = ids[b.numberAt l']?
  /-- An exposed read keeps its local. -/
  outside : ∀ {l j : Nat} {r : Instruction τ} {x : Local}, b.Exposed x l j →
    b'.instructions[l]? = some r → r.operands[j]? = some x
  imports : ∀ x, b'.imports x = true ↔ ∃ l j, b.Exposed x l j
  exports : ∀ x y, b'.exported? x = some y ↔
    ∃ l, b.LastAssigns x l ∧ ids[b.numberAt l]? = some y

/-- **With one id for each assignment renaming succeeds, and every id stands where its number says.**
The answer pairs the ids with the destinations of the block, in order. -/
theorem Block.rename_numbered {ids : List Local} {b : Block τ}
    (h : ids.length = b.assignmentCount) :
    ∃ b', Block.rename ids b = .ok (ids.zip (destinations b.instructions.toList)) b' ∧
      b.RenamedWith ids b' := by
  obtain ⟨ds, b', hrename⟩ := Block.exists_rename (h.trans b.length_destinations.symm)
  obtain ⟨hto, hids, hfst, hsnd⟩ := Block.rename_ok hrename
  obtain rfl := List.zip_of_prod hfst hsnd
  refine ⟨b', hrename, hto.offset, hto.size, ?_, fun ha => h ▸ ha.numberAt_lt, ?_, ?_, ?_,
    Block.rename_imports hrename, ?_⟩
  · intro l i r hi hr
    obtain ⟨ho, ht, hlen, ha⟩ := hto.kept hi hr
    exact ⟨ho, ht, ha.kind_eq, hlen, ha.branch?_eq⟩
  · exact fun ha hr => hto.destination_eq hids ha hr
  · intro l l' j i r x hi hr hx hl ha hno
    obtain ⟨r', -, hr', -, -⟩ := hto.renamed_assignment ha
    rw [hto.inside hi hr hx hl ha hno hr', hto.destination_eq hids ha hr']
  · rintro l j r x ⟨⟨i, hi, hx⟩, hno⟩ hr
    exact (hto.outside hi hr hx hno).1
  · intro x y
    constructor
    · intro hy
      by_cases hsome : ∃ l, b.Assigns x l
      · obtain ⟨l, ha⟩ := hsome
        obtain ⟨l', hlast⟩ := Block.exists_lastAssigns ha
        obtain ⟨r, -, hr, -, -⟩ := hto.renamed_assignment hlast.1
        refine ⟨l', hlast, ?_⟩
        rw [← hto.destination_eq hids hlast.1 hr, ← hto.exports hlast hr, hy]
      · rw [hto.exports_none fun l ha => hsome ⟨l, ha⟩] at hy
        cases hy
    · rintro ⟨l, hlast, hy⟩
      obtain ⟨r, -, hr, -, -⟩ := hto.renamed_assignment hlast.1
      rw [hto.exports hlast hr, hto.destination_eq hids hlast.1 hr, hy]

/-- Three assignments, and reads of locals that will also serve as ids. -/
def reusing : Block Unit :=
  { offset := 0
    instructions := #[⟨0, (), [⟨2⟩], .assign ⟨1⟩⟩, ⟨1, (), [⟨1⟩], .assign ⟨3⟩⟩,
      ⟨2, (), [⟨3⟩, ⟨1⟩], .assign ⟨1⟩⟩, ⟨3, (), [⟨1⟩, ⟨2⟩, ⟨3⟩], .effect⟩] }

/-- Local 3 is an id twice and local 1 once; their own assignments and reads are not confused with
that. -/
theorem reusing_renamed :
    [(⟨3⟩ : Local), ⟨3⟩, ⟨1⟩].length = reusing.assignmentCount ∧
      ∃ b', Block.rename [⟨3⟩, ⟨3⟩, ⟨1⟩] reusing =
          .ok [(⟨3⟩, ⟨1⟩), (⟨3⟩, ⟨3⟩), (⟨1⟩, ⟨1⟩)] b' ∧
        reusing.RenamedWith [⟨3⟩, ⟨3⟩, ⟨1⟩] b' ∧ b'.exported? ⟨1⟩ = some ⟨1⟩ ∧
        b'.imports ⟨2⟩ = true := by
  have hcount : [(⟨3⟩ : Local), ⟨3⟩, ⟨1⟩].length = reusing.assignmentCount := by decide
  obtain ⟨b', hrename, hwith⟩ := Block.rename_numbered hcount
  refine ⟨hcount, b', hrename, hwith, (hwith.exports _ _).2 ⟨2, ⟨⟨_, rfl, rfl⟩, ?_⟩, rfl⟩, ?_⟩
  · rintro (_ | _ | _ | _ | q) hq ⟨i, hi, hx⟩
    · omega
    · omega
    · omega
    · cases hi
      cases hx
    · simp [reusing] at hi
  · exact (hwith.imports _).2 ⟨0, 0, ⟨_, rfl, rfl⟩, fun q hq => absurd hq (Nat.not_lt_zero q)⟩

end SingleAssignment
