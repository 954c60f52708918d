import SingleAssignment.Flow.Renaming
import SingleAssignment.Proofs.Destinations
import SingleAssignment.Proofs.Flow.Arrival

/-!
# What renaming does to a block

Renaming walks down a block with a scope.  `RenamedBy` says once what it does to one instruction and
to the scope, and `lastName` says what the scope knows of a local after a run of instructions: the
new destination of the last assignment to it.

* `renameFrom_cons` — the walk is one step and the walk over the rest.
* `Block.RenamedTo` — a renamed block beside the block it comes from: reads behind an assignment of
  the block take its new name, all other reads are imports, and the export of a local is the new
  name of its last assignment.
* `Block.rename_ok` — **a successful renaming gives such a block and uses the ids in order.**
* `Block.exists_rename` — renaming succeeds with one id for each assignment.
-/

namespace SingleAssignment

variable {τ : Type}

/-! ## Reading operands -/

theorem Scope.readAll_fst (s : Scope) (xs : List Local) :
    (s.readAll xs).1 = xs.map fun x => (s.exported[x]?).getD x := by
  induction xs generalizing s with
  | nil => rfl
  | cons x xs ih =>
      have hsame : (s.read x).2.exported = s.exported := by
        unfold read
        split <;> rfl
      simp only [readAll, List.map_cons, ih, hsame]
      congr 1
      unfold read
      split <;> simp_all

theorem Scope.readAll_exported (s : Scope) (xs : List Local) :
    (s.readAll xs).2.exported = s.exported := by
  induction xs generalizing s with
  | nil => rfl
  | cons x xs ih =>
      simp only [readAll, ih]
      unfold read
      split <;> rfl

theorem Scope.mem_readAll_imported (s : Scope) (xs : List Local) (y : Local) :
    y ∈ (s.readAll xs).2.imported ↔ y ∈ s.imported ∨ y ∈ xs ∧ s.exported[y]? = none := by
  induction xs generalizing s with
  | nil => simp [readAll]
  | cons x xs ih =>
      simp only [readAll, ih]
      unfold read
      split
      · rename_i z hz
        constructor
        · rintro (h | ⟨h, hn⟩)
          · exact .inl h
          · exact .inr ⟨List.mem_cons_of_mem _ h, hn⟩
        · rintro (h | ⟨h, hn⟩)
          · exact .inl h
          · rcases List.mem_cons.1 h with rfl | h
            · rw [hz] at hn
              cases hn
            · exact .inr ⟨h, hn⟩
      · rename_i hz
        simp only [Std.TreeSet.mem_insert, Std.LawfulEqOrd.compare_eq_iff_eq, List.mem_cons]
        constructor
        · rintro ((rfl | h) | ⟨h, hn⟩)
          · exact .inr ⟨.inl rfl, hz⟩
          · exact .inl h
          · exact .inr ⟨.inr h, hn⟩
        · rintro (h | ⟨rfl | h, hn⟩)
          · exact .inl (.inr h)
          · exact .inl (.inl rfl)
          · exact .inr ⟨h, hn⟩

/-! ## One instruction -/

/-- The same action, apart from the local that an assignment writes. -/
def Action.SameUpToDestination : Action → Action → Prop
  | .assign _, .assign _ => True
  | a, b => a = b

theorem Action.SameUpToDestination.isSome_destination? {i r : Instruction τ}
    (h : i.action.SameUpToDestination r.action) :
    r.destination?.isSome = i.destination?.isSome := by
  unfold Instruction.destination?
  cases hi : i.action <;> cases hr : r.action <;> simp_all [SameUpToDestination]

theorem Action.SameUpToDestination.branch?_eq {i r : Instruction τ}
    (h : i.action.SameUpToDestination r.action) : r.branch? = i.branch? := by
  unfold Instruction.branch?
  cases hi : i.action <;> cases hr : r.action <;> simp_all [SameUpToDestination]

theorem Action.SameUpToDestination.kind_eq {i u : Instruction τ}
    (h : i.action.SameUpToDestination u.action) : u.kind = i.kind := by
  unfold Instruction.kind
  cases hi : i.action <;> cases hu : u.action <;> simp_all [SameUpToDestination]

theorem Action.SameUpToDestination.exists_destination? {i r : Instruction τ} {x : Local}
    (h : i.action.SameUpToDestination r.action) (hx : i.destination? = some x) :
    ∃ y, r.destination? = some y := by
  rw [← Option.isSome_iff_exists, h.isSome_destination?, hx]
  rfl

/-- What renaming does to an instruction `i` in a scope: `r` comes out, and `s'` is known behind. -/
structure RenamedBy (s : Scope) (i r : Instruction τ) (s' : Scope) : Prop where
  offset : r.offset = i.offset
  tag : r.tag = i.tag
  operands : r.operands = i.operands.map fun x => (s.exported[x]?).getD x
  action : i.action.SameUpToDestination r.action
  exported : ∀ x, s'.exported[x]? =
    if i.destination? = some x then r.destination? else s.exported[x]?
  imported : ∀ x, x ∈ s'.imported ↔ x ∈ s.imported ∨ x ∈ i.operands ∧ s.exported[x]? = none

theorem Instruction.action_eq_assign {i : Instruction τ} {x : Local}
    (h : i.destination? = some x) : i.action = .assign x := by
  unfold destination? at h
  split at h <;> simp_all

theorem renameFrom_short (s : Scope) {i : Instruction τ} {x : Local} (ha : i.action = .assign x)
    (rest : List (Instruction τ)) : (renameFrom s [] (i :: rest)).leftOver = none := by
  rw [renameFrom]
  simp [ha]

theorem renameFrom_assign (s : Scope) {i : Instruction τ} {x : Local} (ha : i.action = .assign x)
    (id : Local) (ids : List Local) (rest : List (Instruction τ)) :
    renameFrom s (id :: ids) (i :: rest) =
      (renameFrom ((s.readAll i.operands).2.define x id) ids rest).consDefinition
        { i with operands := (s.readAll i.operands).1 } id x := by
  rw [renameFrom]
  simp [ha]

theorem renameFrom_other (s : Scope) {i : Instruction τ} (ha : i.destination? = none)
    (ids : List Local) (rest : List (Instruction τ)) :
    renameFrom s ids (i :: rest) =
      (renameFrom (s.readAll i.operands).2 ids rest).cons
        { i with operands := (s.readAll i.operands).1 } := by
  rw [renameFrom]
  cases hi : i.action with
  | assign x => simp [Instruction.destination?, hi] at ha
  | effect => simp
  | branch c o => simp

/-- **The walk is one step and the walk over the rest.** -/
theorem renameFrom_cons {s : Scope} {ids left : List Local} {i : Instruction τ}
    {rest : List (Instruction τ)} (h : (renameFrom s ids (i :: rest)).leftOver = some left) :
    ∃ r s' ids', RenamedBy s i r s' ∧ ids = r.destination?.toList ++ ids' ∧
      (renameFrom s' ids' rest).leftOver = some left ∧
      (renameFrom s ids (i :: rest)).scope = (renameFrom s' ids' rest).scope ∧
      (renameFrom s ids (i :: rest)).instructions = r :: (renameFrom s' ids' rest).instructions ∧
      (renameFrom s ids (i :: rest)).definitions =
        r.destination?.toList.zip i.destination?.toList ++
          (renameFrom s' ids' rest).definitions := by
  have hops := s.readAll_fst i.operands
  have hexp := s.readAll_exported i.operands
  have himp := s.mem_readAll_imported i.operands
  cases hd : i.destination? with
  | some x =>
      have ha := Instruction.action_eq_assign hd
      cases ids with
      | nil =>
          rw [renameFrom_short s ha] at h
          cases h
      | cons id ids =>
          rw [renameFrom_assign s ha] at h ⊢
          refine ⟨{ i with operands := (s.readAll i.operands).1, action := .assign id },
            (s.readAll i.operands).2.define x id, ids,
            ⟨rfl, rfl, hops, by rw [ha]; trivial, fun y => ?_, himp⟩, rfl, h, rfl, rfl, rfl⟩
          simp only [Scope.define, hd, Option.some.injEq, Std.TreeMap.getElem?_insert,
            Std.LawfulEqOrd.compare_eq_iff_eq, hexp]
          rfl
  | none =>
      rw [renameFrom_other s hd] at h ⊢
      have hnone : ({ i with operands := (s.readAll i.operands).1 } : Instruction τ).destination? =
          none := hd
      refine ⟨{ i with operands := (s.readAll i.operands).1 }, (s.readAll i.operands).2, ids,
        ⟨rfl, rfl, hops, ?_, fun y => ?_, himp⟩, by rw [hnone]; rfl, h, rfl, rfl, ?_⟩
      · cases i.action <;> simp [Action.SameUpToDestination]
      · rw [hd, hexp]
        simp
      · rw [hnone]
        rfl

/-- One id for each assignment is what the walk uses up. -/
theorem renameFrom_leftOver {s : Scope} {ids : List Local} {is : List (Instruction τ)}
    (h : ids.length = (destinations is).length) : (renameFrom s ids is).leftOver = some [] := by
  induction is generalizing s ids with
  | nil =>
      obtain rfl := List.length_eq_zero_iff.1 h
      rfl
  | cons i is ih =>
      rw [destinations_cons] at h
      cases hd : i.destination? with
      | none =>
          rw [renameFrom_other s hd]
          exact ih (by simpa [hd] using h)
      | some x =>
          cases ids with
          | nil => simp [hd] at h
          | cons id ids =>
              rw [renameFrom_assign s (Instruction.action_eq_assign hd)]
              exact ih (by simpa [hd] using h)

/-! ## A run of instructions -/

/-- The new destination of the last assignment to `x` in a run and its renamed form, or `name` if
the run does not assign `x`. -/
def lastName (x : Local) (name : Option Local) :
    List (Instruction τ) → List (Instruction τ) → Option Local
  | i :: is, r :: rs => lastName x (if i.destination? = some x then r.destination? else name) is rs
  | _, _ => name

theorem lastName_of_none {x : Local} {is : List (Instruction τ)} (name : Option Local)
    (rs : List (Instruction τ)) (h : ∀ i ∈ is, i.destination? ≠ some x) :
    lastName x name is rs = name := by
  induction is generalizing rs with
  | nil => cases rs <;> rfl
  | cons i is ih =>
      cases rs with
      | nil => rfl
      | cons r rs =>
          rw [lastName, if_neg (h i List.mem_cons_self)]
          exact ih rs fun j hj => h j (List.mem_cons_of_mem _ hj)

theorem lastName_of_last {x : Local} {is rs : List (Instruction τ)} {name : Option Local} {l : Nat}
    {i r : Instruction τ} (hi : is[l]? = some i) (hr : rs[l]? = some r)
    (hx : i.destination? = some x)
    (hlast : ∀ q j, l < q → is[q]? = some j → j.destination? ≠ some x) :
    lastName x name is rs = r.destination? := by
  induction is generalizing rs name l with
  | nil => simp at hi
  | cons i' is ih =>
      cases rs with
      | nil => simp at hr
      | cons r' rs =>
          rw [lastName]
          cases l with
          | zero =>
              rw [List.getElem?_cons_zero] at hi hr
              cases hi
              cases hr
              rw [if_pos hx]
              refine lastName_of_none _ rs fun j hj => ?_
              obtain ⟨q, hq⟩ := List.mem_iff_getElem?.1 hj
              exact hlast (q + 1) j (by omega) (by rw [List.getElem?_cons_succ]; exact hq)
          | succ l =>
              rw [List.getElem?_cons_succ] at hi hr
              refine ih hi hr fun q j hq hj => hlast (q + 1) j (by omega) ?_
              rw [List.getElem?_cons_succ]
              exact hj

/-- What renaming does to a run of instructions in a scope. -/
structure RenamedRun (s : Scope) (is rs : List (Instruction τ)) (s' : Scope) : Prop where
  length : rs.length = is.length
  exported : ∀ x, s'.exported[x]? = lastName x s.exported[x]? is rs
  imported : ∀ x, x ∈ s'.imported ↔ x ∈ s.imported ∨ ∃ (l : Nat) (i : Instruction τ),
    is[l]? = some i ∧ x ∈ i.operands ∧ lastName x s.exported[x]? (is.take l) (rs.take l) = none
  place : ∀ (l : Nat) (i : Instruction τ), is[l]? = some i → ∃ r : Instruction τ,
    rs[l]? = some r ∧ r.offset = i.offset ∧ r.tag = i.tag ∧
      i.action.SameUpToDestination r.action ∧ r.operands = i.operands.map fun x =>
        (lastName x s.exported[x]? (is.take l) (rs.take l)).getD x

theorem RenamedRun.nil (s : Scope) : RenamedRun s ([] : List (Instruction τ)) [] s :=
  ⟨rfl, fun _ => rfl, fun _ => by simp, fun l i h => by simp at h⟩

theorem RenamedRun.cons {s s₁ s₂ : Scope} {i r : Instruction τ} {is rs : List (Instruction τ)}
    (h : RenamedBy s i r s₁) (hrun : RenamedRun s₁ is rs s₂) :
    RenamedRun s (i :: is) (r :: rs) s₂ := by
  have hname : ∀ x l, lastName x s.exported[x]? ((i :: is).take (l + 1)) ((r :: rs).take (l + 1)) =
      lastName x s₁.exported[x]? (is.take l) (rs.take l) := by
    intro x l
    rw [List.take_succ_cons, List.take_succ_cons, lastName, h.exported]
  refine ⟨by simp [hrun.length], fun x => ?_, fun x => ?_, fun l j hj => ?_⟩
  · rw [hrun.exported, lastName, h.exported]
  · rw [hrun.imported, h.imported]
    constructor
    · rintro ((hx | ⟨hx, hn⟩) | ⟨l, j, hj, hx, hn⟩)
      · exact .inl hx
      · exact .inr ⟨0, i, rfl, hx, hn⟩
      · exact .inr ⟨l + 1, j, hj, hx, by rw [hname]; exact hn⟩
    · rintro (hx | ⟨l, j, hj, hx, hn⟩)
      · exact .inl (.inl hx)
      · cases l with
        | zero =>
            cases hj
            exact .inl (.inr ⟨hx, hn⟩)
        | succ l =>
            rw [hname] at hn
            exact .inr ⟨l, j, hj, hx, hn⟩
  · cases l with
    | zero =>
        cases hj
        exact ⟨r, rfl, h.offset, h.tag, h.action, h.operands⟩
    | succ l =>
        obtain ⟨r', hr', ho, ht, ha, hops⟩ := hrun.place l j hj
        refine ⟨r', hr', ho, ht, ha, ?_⟩
        rw [hops]
        simp only [hname]

theorem renameFrom_run {s : Scope} {ids left : List Local} {is : List (Instruction τ)}
    (h : (renameFrom s ids is).leftOver = some left) :
    RenamedRun s is (renameFrom s ids is).instructions (renameFrom s ids is).scope ∧
      ids = destinations (renameFrom s ids is).instructions ++ left ∧
      (renameFrom s ids is).definitions.map (·.1) =
        destinations (renameFrom s ids is).instructions ∧
      (renameFrom s ids is).definitions.map (·.2) = destinations is := by
  induction is generalizing s ids with
  | nil =>
      cases h
      exact ⟨RenamedRun.nil s, rfl, rfl, rfl⟩
  | cons i is ih =>
      obtain ⟨r, s', ids', hstep, rfl, hleft, hscope, hinstr, hdefs⟩ := renameFrom_cons h
      obtain ⟨hrun, hids, hfst, hsnd⟩ := ih hleft
      have hlen : r.destination?.toList.length = i.destination?.toList.length := by
        rw [Option.length_toList, Option.length_toList, hstep.action.isSome_destination?]
      refine ⟨?_, ?_, ?_, ?_⟩
      · rw [hinstr, hscope]
        exact .cons hstep hrun
      · rw [hinstr, destinations_cons, List.append_assoc, ← hids]
      · rw [hdefs, hinstr, destinations_cons, List.map_append, hfst,
          List.map_fst_zip (Nat.le_of_eq hlen)]
      · rw [hdefs, destinations_cons, List.map_append, hsnd,
          List.map_snd_zip (Nat.le_of_eq hlen.symm)]

/-! ## Blocks -/

/-- A renamed block beside the block it comes from. -/
structure Block.RenamedTo (b b' : Block τ) : Prop where
  offset : b'.offset = b.offset
  size : b'.instructions.size = b.instructions.size
  kept : ∀ {l : Nat} {i r : Instruction τ}, b.instructions[l]? = some i →
    b'.instructions[l]? = some r → r.offset = i.offset ∧ r.tag = i.tag ∧
      r.operands.length = i.operands.length ∧ i.action.SameUpToDestination r.action
  inside : ∀ {l l' j : Nat} {i r r' : Instruction τ} {x : Local}, b.instructions[l]? = some i →
    b'.instructions[l]? = some r → i.operands[j]? = some x → l' < l → b.Assigns x l' →
    (∀ q, l' < q → q < l → ¬ b.Assigns x q) → b'.instructions[l']? = some r' →
      r.operands[j]? = r'.destination?
  outside : ∀ {l j : Nat} {i r : Instruction τ} {x : Local}, b.instructions[l]? = some i →
    b'.instructions[l]? = some r → i.operands[j]? = some x → (∀ q < l, ¬ b.Assigns x q) →
      r.operands[j]? = some x ∧ b'.imports x = true
  imports : ∀ {x : Local}, b'.imports x = true →
    ∃ (l : Nat) (i : Instruction τ), b.instructions[l]? = some i ∧ x ∈ i.operands
  exports : ∀ {l : Nat} {r : Instruction τ} {x : Local}, b.LastAssigns x l →
    b'.instructions[l]? = some r → b'.exported? x = r.destination?
  exports_none : ∀ {x : Local}, (∀ l, ¬ b.Assigns x l) → b'.exported? x = none

/-- An assignment is renamed to an assignment. -/
theorem Block.RenamedTo.renamed_assignment {b b' : Block τ} (h : b.RenamedTo b') {x : Local}
    {l : Nat} (ha : b.Assigns x l) :
    ∃ r y, b'.instructions[l]? = some r ∧ r.destination? = some y ∧ b'.Assigns y l := by
  obtain ⟨i, hi, hx⟩ := ha
  have hl : l < b'.instructions.size := by
    rw [h.size]
    exact (Array.getElem?_eq_some_iff.1 hi).1
  have hr := Array.getElem?_eq_getElem hl
  obtain ⟨y, hy⟩ := (h.kept hi hr).2.2.2.exists_destination? hx
  exact ⟨_, y, hr, hy, _, hr, hy⟩

/-- A renamed operand is the new name of the last assignment above it, or else an import. -/
theorem Block.RenamedTo.operand_cases {b b' : Block τ} (h : b.RenamedTo b') {l j : Nat}
    {i r : Instruction τ} {x : Local} (hi : b.instructions[l]? = some i)
    (hr : b'.instructions[l]? = some r) (hx : i.operands[j]? = some x) :
    (∃ l' < l, b.Assigns x l' ∧ (∀ q, l' < q → q < l → ¬ b.Assigns x q) ∧
      ∃ z, r.operands[j]? = some z ∧ b'.Assigns z l') ∨
    ((∀ q < l, ¬ b.Assigns x q) ∧ r.operands[j]? = some x ∧ b'.imports x = true) := by
  rcases b.last_below x l with hno | ⟨l', hl', ha, hno⟩
  · exact .inr ⟨hno, h.outside hi hr hx hno⟩
  · obtain ⟨r', z, hr', hz, hassigns⟩ := h.renamed_assignment ha
    exact .inl ⟨l', hl', ha, hno, z, by rw [h.inside hi hr hx hl' ha hno hr', hz], hassigns⟩

theorem Block.not_assigns_iff {b : Block τ} {x : Local} {q : Nat} :
    ¬ b.Assigns x q ↔ ∀ i, b.instructions.toList[q]? = some i → i.destination? ≠ some x := by
  unfold Assigns
  simp only [Array.getElem?_toList, not_exists, not_and]

/-- No name is known below a position that no assignment stands above. -/
theorem Block.lastName_take_eq_none {b b' : Block τ} {l : Nat} {x : Local}
    (hno : ∀ q < l, ¬ b.Assigns x q) :
    lastName x none (b.instructions.toList.take l) (b'.instructions.toList.take l) = none := by
  apply lastName_of_none
  intro i hi
  obtain ⟨q, hq⟩ := List.mem_iff_getElem?.1 hi
  rw [List.getElem?_take] at hq
  split at hq
  · exact not_assigns_iff.1 (hno q (by assumption)) i hq
  · cases hq

/-- The name known at a position is the new destination of the last assignment above it. -/
theorem Block.lastName_take_eq {b b' : Block τ} {l l' : Nat} {x : Local} {r : Instruction τ}
    (hl : l' < l) (ha : b.Assigns x l') (hno : ∀ q, l' < q → q < l → ¬ b.Assigns x q)
    (hr : b'.instructions[l']? = some r) :
    lastName x none (b.instructions.toList.take l) (b'.instructions.toList.take l) =
      r.destination? := by
  obtain ⟨i, hi, hx⟩ := ha
  refine lastName_of_last (l := l') (i := i) ?_ ?_ hx fun q j hq hj => ?_
  · rw [List.getElem?_take, if_pos hl, Array.getElem?_toList]
    exact hi
  · rw [List.getElem?_take, if_pos hl, Array.getElem?_toList]
    exact hr
  · rw [List.getElem?_take] at hj
    split at hj
    · exact not_assigns_iff.1 (hno q hq (by assumption)) j hj
    · cases hj

theorem Block.renamedTo_of_run {b b' : Block τ} {s : Scope}
    (h : RenamedRun {} b.instructions.toList b'.instructions.toList s)
    (ho : b'.offset = b.offset) (hi : b'.imported = s.imported) (he : b'.exported = s.exported) :
    b.RenamedTo b' := by
  have hstart : ∀ x : Local, ({} : Scope).exported[x]? = none := fun x => by simp
  have hplace : ∀ {l : Nat} {i r : Instruction τ}, b.instructions[l]? = some i →
      b'.instructions[l]? = some r → r.offset = i.offset ∧ r.tag = i.tag ∧
        i.action.SameUpToDestination r.action ∧ r.operands = i.operands.map fun x =>
          (lastName x none (b.instructions.toList.take l)
            (b'.instructions.toList.take l)).getD x := by
    intro l i r hil hr
    obtain ⟨r', hr', hkeep⟩ := h.place l i (by rw [Array.getElem?_toList]; exact hil)
    rw [Array.getElem?_toList, hr] at hr'
    cases hr'
    simpa only [hstart] using hkeep
  have hwhole : ∀ x, b'.exported? x =
      lastName x none (b.instructions.toList.take b.instructions.size)
        (b'.instructions.toList.take b.instructions.size) := by
    intro x
    have hlen := h.length
    simp only [Array.length_toList] at hlen
    rw [List.take_of_length_le (by simp), List.take_of_length_le (by simp [hlen])]
    unfold exported?
    rw [he, h.exported, hstart]
  refine ⟨ho, by simpa using h.length, ?_, ?_, ?_, ?_, ?_, ?_⟩
  · intro l i r hil hr
    obtain ⟨h1, h2, h3, h4⟩ := hplace hil hr
    exact ⟨h1, h2, by simp [h4], h3⟩
  · intro l l' j i r r' x hil hr hx hl ha hno hr'
    obtain ⟨-, -, -, h4⟩ := hplace hil hr
    rw [h4, List.getElem?_map, hx, Option.map_some, lastName_take_eq hl ha hno hr']
    obtain ⟨i', hi', hd⟩ := ha
    obtain ⟨y, hy⟩ := (hplace hi' hr').2.2.1.exists_destination? hd
    rw [hy]
    rfl
  · intro l j i r x hil hr hx hno
    obtain ⟨-, -, -, h4⟩ := hplace hil hr
    rw [h4, List.getElem?_map, hx, Option.map_some, lastName_take_eq_none hno]
    refine ⟨rfl, ?_⟩
    unfold imports
    rw [hi]
    refine Std.TreeSet.mem_iff_contains.1 ((h.imported x).2 (.inr ⟨l, i, ?_, ?_, ?_⟩))
    · rw [Array.getElem?_toList]
      exact hil
    · exact List.mem_of_getElem? hx
    · rw [hstart]
      exact lastName_take_eq_none hno
  · intro x hx
    unfold imports at hx
    rw [hi] at hx
    rcases (h.imported x).1 (Std.TreeSet.mem_iff_contains.2 hx) with hx | ⟨l, i, hil, hx, _⟩
    · simp at hx
    · exact ⟨l, i, by rwa [Array.getElem?_toList] at hil, hx⟩
  · intro l r x hla hr
    rw [hwhole]
    exact lastName_take_eq hla.1.lt hla.1 (fun q hq _ => hla.2 q hq) hr
  · intro x hno
    rw [hwhole]
    exact lastName_take_eq_none fun q _ => hno q

/-- **A successful renaming gives a renamed block and uses the ids in order.** -/
theorem Block.rename_ok {ids : List Local} {b b' : Block τ} {ds : List (Local × Local)}
    (h : Block.rename ids b = .ok ds b') :
    b.RenamedTo b' ∧ destinations b'.instructions.toList = ids ∧
      ds.map (·.1) = ids ∧ ds.map (·.2) = destinations b.instructions.toList := by
  unfold Block.rename at h
  simp only at h
  split at h
  · cases h
  · cases h
  · rename_i hleft
    obtain ⟨hrun, hids, hfst, hsnd⟩ := renameFrom_run hleft
    rw [List.append_nil] at hids
    cases h
    refine ⟨renamedTo_of_run (s := (renameFrom {} ids b.instructions.toList).scope) ?_ rfl rfl rfl,
      ?_, ?_, hsnd⟩
    · simpa [Block.setBorders] using hrun
    · simpa [Block.setBorders] using hids.symm
    · rw [hfst, ← hids]

theorem Block.length_destinations (b : Block τ) :
    (destinations b.instructions.toList).length = b.assignmentCount := by
  rw [length_destinations_eq_countP, Array.countP_toList]
  rfl

/-- **Renaming succeeds with one id for each assignment.** -/
theorem Block.exists_rename {ids : List Local} {b : Block τ}
    (h : ids.length = (destinations b.instructions.toList).length) :
    ∃ ds b', Block.rename ids b = .ok ds b' := by
  unfold Block.rename
  simp only [renameFrom_leftOver h]
  exact ⟨_, _, rfl⟩

end SingleAssignment
