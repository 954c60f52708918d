import SingleAssignment.Proofs.Flow.AssignedIds

/-!
# Renaming with the wrong number of ids

A reservation that does not match its block makes renaming fail, but not without a trace: ids are
handed out while the instructions are rewritten, so the walk has come as far as the ids last.  What it
leaves behind is compared with a renaming by a list of the right length that agrees with the
reservation: the same instructions if ids are left over, and otherwise the same ones above the first
assignment without an id, that assignment with its reads renamed, and the old ones behind it.

* `renameFrom_append` — the walk over two runs is one walk after the other.
* `renameFrom_surplus` — ids that are not needed change nothing but what is left over.
* `exists_unserved` — where the ids run out.
* `Block.rename_of_mismatch` — **renaming fails iff the numbers differ, and this is what it leaves.**
-/

namespace SingleAssignment

variable {τ : Type}

/-! ## Walks in parts -/

/-- What a walk and the walk that goes on behind it give together. -/
def Renamed.append (r r' : Renamed τ) : Renamed τ :=
  { r' with
    instructions := r.instructions ++ r'.instructions
    definitions := r.definitions ++ r'.definitions }

/-- **The walk over two runs is one walk after the other.** -/
theorem renameFrom_append {s : Scope} {ids left : List Local} {front : List (Instruction τ)}
    (h : (renameFrom s ids front).leftOver = some left) (back : List (Instruction τ)) :
    renameFrom s ids (front ++ back) =
      (renameFrom s ids front).append (renameFrom (renameFrom s ids front).scope left back) := by
  induction front generalizing s ids with
  | nil =>
      cases h
      rfl
  | cons i front ih =>
      rw [List.cons_append]
      cases hd : i.destination? with
      | none =>
          rw [renameFrom_other s hd] at h ⊢
          rw [renameFrom_other s hd, ih h]
          rfl
      | some x =>
          have ha := Instruction.action_eq_assign hd
          cases ids with
          | nil =>
              rw [renameFrom_short s ha] at h
              cases h
          | cons id ids =>
              rw [renameFrom_assign s ha] at h ⊢
              rw [renameFrom_assign s ha, ih h]
              rfl

/-- **Ids that are not needed change nothing but what is left over.** -/
theorem renameFrom_surplus {s : Scope} {ids left : List Local} {is : List (Instruction τ)}
    (h : (renameFrom s ids is).leftOver = some left) (extra : List Local) :
    renameFrom s (ids ++ extra) is =
      ⟨(renameFrom s ids is).instructions, (renameFrom s ids is).definitions,
        (renameFrom s ids is).scope, some (left ++ extra)⟩ := by
  induction is generalizing s ids with
  | nil =>
      cases h
      rfl
  | cons i is ih =>
      cases hd : i.destination? with
      | none =>
          rw [renameFrom_other s hd] at h ⊢
          rw [renameFrom_other s hd, ih h]
          rfl
      | some x =>
          have ha := Instruction.action_eq_assign hd
          cases ids with
          | nil =>
              rw [renameFrom_short s ha] at h
              cases h
          | cons id ids =>
              rw [renameFrom_assign s ha] at h ⊢
              rw [List.cons_append, renameFrom_assign s ha, ih h]
              rfl

/-- A walk to the end has served every assignment. -/
theorem length_of_leftOver {s : Scope} {ids left : List Local} {is : List (Instruction τ)}
    (h : (renameFrom s ids is).leftOver = some left) :
    (renameFrom s ids is).definitions.length = (destinations is).length ∧
      ids.length = (destinations is).length + left.length := by
  obtain ⟨-, hids, hfst, hsnd⟩ := renameFrom_run h
  have hserved := congrArg List.length hfst
  have hasked := congrArg List.length hsnd
  have hall := congrArg List.length hids
  rw [List.length_map] at hserved hasked
  rw [List.length_append] at hall
  omega

/-- An assignment without an id has its operands read, and that is the end of the walk. -/
theorem renameFrom_unserved (s : Scope) {i : Instruction τ} {x : Local} (ha : i.action = .assign x)
    (rest : List (Instruction τ)) :
    renameFrom s [] (i :: rest) =
      ⟨{ i with operands := (s.readAll i.operands).1 } :: rest, [], (s.readAll i.operands).2,
        none⟩ := by
  rw [renameFrom]
  simp [ha]

/-- Where the ids run out: the assignment that has as many assignments above it as there are ids. -/
theorem exists_unserved {n : Nat} {is : List (Instruction τ)} (h : n < (destinations is).length) :
    ∃ front i rest x, is = front ++ i :: rest ∧ i.destination? = some x ∧
      (destinations front).length = n := by
  induction is generalizing n with
  | nil => cases h
  | cons i is ih =>
      rw [destinations_cons, List.length_append] at h
      cases hd : i.destination? with
      | none =>
          rw [hd, Option.toList_none, List.length_nil, Nat.zero_add] at h
          obtain ⟨front, j, rest, x, rfl, hx, hlen⟩ := ih h
          refine ⟨i :: front, j, rest, x, rfl, hx, ?_⟩
          rw [destinations_cons, hd]
          exact hlen
      | some y =>
          cases n with
          | zero => exact ⟨[], i, is, y, rfl, hd, rfl⟩
          | succ n =>
              rw [hd, Option.toList_some, List.length_singleton, Nat.add_comm] at h
              obtain ⟨front, j, rest, x, rfl, hx, hlen⟩ := ih (show n < (destinations is).length by omega)
              refine ⟨i :: front, j, rest, x, rfl, hx, ?_⟩
              rw [destinations_cons, hd, List.length_append, hlen, Nat.add_comm]
              rfl

/-- **With too few ids the walk ends at the first assignment without one.**  Above it the instructions
are those of a walk with enough ids, and so are its own operands. -/
theorem renameFrom_halfway {s : Scope} {ids full : List Local} {is : List (Instruction τ)}
    (hfull : full.length = (destinations is).length) (hpre : ids <+: full)
    (hlt : ids.length < full.length) :
    ∃ front i rest done r after, is = front ++ i :: rest ∧ i.isAssignment = true ∧
      (destinations front).length = ids.length ∧ done.length = front.length ∧
      (renameFrom s full is).instructions = done ++ r :: after ∧
      (renameFrom s ids is).instructions = done ++ { r with action := i.action } :: rest := by
  obtain ⟨extra, rfl⟩ := hpre
  obtain ⟨front, i, rest, x, rfl, hx, hlen⟩ := exists_unserved (hfull ▸ hlt)
  obtain ⟨y, more, rfl⟩ : ∃ y more, extra = y :: more :=
    List.exists_cons_of_ne_nil fun he => by simp [he] at hlt
  have ha := Instruction.action_eq_assign hx
  have hserved : (renameFrom s ids front).leftOver = some [] := renameFrom_leftOver hlen.symm
  have hsame := renameFrom_surplus hserved (y :: more)
  rw [List.nil_append] at hsame
  have hshort := renameFrom_append hserved (i :: rest)
  rw [renameFrom_unserved _ ha] at hshort
  have hleft : (renameFrom s (ids ++ y :: more) front).leftOver = some (y :: more) := by rw [hsame]
  have hlong := renameFrom_append hleft (i :: rest)
  rw [hsame, renameFrom_assign _ ha] at hlong
  refine ⟨front, i, rest, (renameFrom s ids front).instructions, _, _, rfl,
    by simp [Instruction.isAssignment, hx], hlen, (renameFrom_run hserved).1.length,
    congrArg Renamed.instructions hlong, ?_⟩
  rw [hshort]
  rfl

/-! ## Blocks -/

namespace Block

/-- What is wrong with a reservation of `m` ids. -/
def mismatch (b : Block τ) (m : Nat) : Violation :=
  if m < b.assignmentCount then .reservationShort b.offset m
  else .reservationLong b.offset m b.assignmentCount

/-- The check that notices it. -/
def mismatchSite (b : Block τ) (m : Nat) : Site :=
  if m < b.assignmentCount then shortageSite else excessSite

/-- The block `b` on the way to the renamed block `c`, stopped at assignment number `n`: that
assignment has its new operands and its old destination. -/
def StoppedAt (b c : Block τ) (n : Nat) (b' : Block τ) : Prop :=
  ∃ (l : Nat) (i r : Instruction τ), b.instructions[l]? = some i ∧ i.isAssignment = true ∧
    b.numberAt l = n ∧ c.instructions[l]? = some r ∧
    b'.instructions.toList = c.instructions.toList.take l ++ { r with action := i.action } ::
      b.instructions.toList.drop (l + 1)

section Outcome

variable {ids : List Local} {b : Block τ}

theorem rename_eq_ok (h : (renameFrom {} ids b.instructions.toList).leftOver = some []) :
    ∃ ds c, Block.rename ids b = .ok ds c ∧
      c.instructions.toList = (renameFrom {} ids b.instructions.toList).instructions := by
  unfold Block.rename
  simp only [h]
  exact ⟨_, _, rfl, rfl⟩

theorem rename_eq_short (h : ids.length < b.assignmentCount) :
    Block.rename ids b =
      .error (.invariantViolation (b.mismatch ids.length) (b.mismatchSite ids.length))
      { b with instructions := (renameFrom {} ids b.instructions.toList).instructions.toArray } := by
  have hnone : (renameFrom {} ids b.instructions.toList).leftOver = none := by
    cases hleft : (renameFrom {} ids b.instructions.toList).leftOver with
    | none => rfl
    | some left =>
        have hlen := (length_of_leftOver hleft).2
        rw [b.length_destinations] at hlen
        omega
  unfold Block.rename mismatch mismatchSite
  simp only [hnone, if_pos h]

theorem rename_eq_long (h : b.assignmentCount < ids.length) :
    Block.rename ids b =
      .error (.invariantViolation (b.mismatch ids.length) (b.mismatchSite ids.length))
      { b with instructions := (renameFrom {} ids b.instructions.toList).instructions.toArray } := by
  obtain ⟨id, left, hleft⟩ : ∃ id left,
      (renameFrom {} ids b.instructions.toList).leftOver = some (id :: left) := by
    have hserved : (renameFrom {} (ids.take b.assignmentCount) b.instructions.toList).leftOver =
        some [] := by
      apply renameFrom_leftOver
      rw [b.length_destinations, List.length_take, Nat.min_eq_left (Nat.le_of_lt h)]
    have hall := renameFrom_surplus hserved (ids.drop b.assignmentCount)
    rw [List.take_append_drop, List.drop_eq_getElem_cons h] at hall
    exact ⟨_, _, congrArg Renamed.leftOver hall⟩
  have hlen := (length_of_leftOver hleft).1
  rw [b.length_destinations] at hlen
  unfold Block.rename mismatch mismatchSite
  simp only [hleft, hlen, if_neg (Nat.not_lt.2 (Nat.le_of_lt h))]

theorem rename_eq_error (h : ids.length ≠ b.assignmentCount) :
    Block.rename ids b =
      .error (.invariantViolation (b.mismatch ids.length) (b.mismatchSite ids.length))
      { b with instructions := (renameFrom {} ids b.instructions.toList).instructions.toArray } :=
  (Nat.lt_or_gt_of_ne h).elim rename_eq_short rename_eq_long

end Outcome

/-- A walk that runs out of ids, beside a walk with enough of them. -/
theorem stoppedAt_of_prefix {ids full : List Local} {b c b' : Block τ} (hpre : ids <+: full)
    (hfull : full.length = b.assignmentCount) (hlt : ids.length < full.length)
    (hc : c.instructions.toList = (renameFrom {} full b.instructions.toList).instructions)
    (hb' : b'.instructions.toList = (renameFrom {} ids b.instructions.toList).instructions) :
    b.StoppedAt c ids.length b' := by
  obtain ⟨front, i, rest, done, r, after, hsplit, hi, hnumber, hlen, hlong, hshort⟩ :=
    renameFrom_halfway (s := {}) (hfull.trans b.length_destinations.symm) hpre hlt
  rw [hlong] at hc
  rw [hshort] at hb'
  refine ⟨front.length, i, r, ?_, hi, ?_, ?_, ?_⟩
  · rw [← Array.getElem?_toList, hsplit, List.getElem?_append_right (Nat.le_refl _), Nat.sub_self,
      List.getElem?_cons_zero]
  · rw [numberAt, hsplit, List.take_left, ← length_destinations_eq_countP, hnumber]
  · rw [← Array.getElem?_toList, hc, ← hlen, List.getElem?_append_right (Nat.le_refl _), Nat.sub_self,
      List.getElem?_cons_zero]
  · rw [hb', hc, hsplit, ← hlen, List.take_left, hlen, ← List.drop_drop, List.drop_left]
    rfl

end Block

/-- **Renaming fails iff the ids and the assignments differ in number.**  The fault names the block
and the numbers, and the border tables are untouched.  Beside any renaming by the right number of ids
that agrees with the given ones, the instructions are the same if ids are left over; if they run out,
the walk was stopped at the first assignment without an id. -/
theorem Block.rename_of_mismatch (ids : List Local) (b : Block τ) :
    ((∃ e b', Block.rename ids b = .error e b') ↔ ids.length ≠ b.assignmentCount) ∧
      ∀ e b', Block.rename ids b = .error e b' →
        e = .invariantViolation (b.mismatch ids.length) (b.mismatchSite ids.length) ∧
        b'.offset = b.offset ∧ b'.imported = b.imported ∧ b'.exported = b.exported ∧
        ∀ full : List Local, full.length = b.assignmentCount → ids <+: full ∨ full <+: ids →
          ∃ ds c, Block.rename full b = .ok ds c ∧
            (b.assignmentCount < ids.length → b'.instructions = c.instructions) ∧
            (ids.length < b.assignmentCount → b.StoppedAt c ids.length b') := by
  have hfails : ∀ e b', Block.rename ids b = .error e b' → ids.length ≠ b.assignmentCount := by
    intro e b' herror heq
    obtain ⟨ds, c, hok⟩ := Block.exists_rename (heq.trans b.length_destinations.symm)
    rw [hok] at herror
    cases herror
  refine ⟨⟨fun ⟨e, b', herror⟩ => hfails e b' herror, fun h => ⟨_, _, rename_eq_error h⟩⟩, ?_⟩
  intro e b' herror
  rw [rename_eq_error (hfails e b' herror)] at herror
  cases herror
  refine ⟨rfl, rfl, rfl, rfl, fun full hfull hagree => ?_⟩
  have hserved : (renameFrom {} full b.instructions.toList).leftOver = some [] :=
    renameFrom_leftOver (hfull.trans b.length_destinations.symm)
  obtain ⟨ds, c, hok, hc⟩ := rename_eq_ok hserved
  refine ⟨ds, c, hok, fun hlong => ?_, fun hshort => ?_⟩
  · -- the ids go on where the right number of them ends
    obtain ⟨extra, rfl⟩ := hagree.resolve_left fun hpre => by
      have := hpre.length_le
      omega
    rw [renameFrom_surplus hserved extra, ← hc]
  · -- the right number of ids goes on where the ids end
    have hpre := hagree.resolve_right fun hpre => by
      have := hpre.length_le
      omega
    exact stoppedAt_of_prefix hpre hfull (hfull.symm ▸ hshort) hc rfl

/-- One id for the three assignments of `reusing`: the second one is read and not renamed. -/
theorem reusing_stopped :
    ∃ e b' ds c, Block.rename [⟨3⟩] reusing = .error e b' ∧
      Block.rename [⟨3⟩, ⟨8⟩, ⟨9⟩] reusing = .ok ds c ∧ reusing.StoppedAt c 1 b' ∧
      b'.instructions[1]? = some ⟨1, (), [⟨3⟩], .assign ⟨3⟩⟩ ∧
      b'.instructions[2]? = reusing.instructions[2]? := by
  have hshort : [(⟨3⟩ : Local)].length < reusing.assignmentCount := by decide
  have hfull : [(⟨3⟩ : Local), ⟨8⟩, ⟨9⟩].length = reusing.assignmentCount := by decide
  obtain ⟨-, hleaves⟩ := Block.rename_of_mismatch [⟨3⟩] reusing
  have herror := Block.rename_eq_short hshort
  obtain ⟨-, -, -, -, hbeside⟩ := hleaves _ _ herror
  obtain ⟨ds, c, hok, -, hstopped⟩ := hbeside [⟨3⟩, ⟨8⟩, ⟨9⟩] hfull (.inl ⟨[⟨8⟩, ⟨9⟩], rfl⟩)
  exact ⟨_, _, ds, c, herror, hok, hstopped hshort, rfl, rfl⟩

end SingleAssignment
