import SingleAssignment.BitSet

/-!
# Membership in bit sets

What the operations of a `BitSet` do to membership.

* `BitSet.insert_cases` — the answers of an insertion; `insert_eq_error_iff` and
  `contains_eq_error_iff` — the calls that fail.
* `BitSet.test_insert`, `BitSet.test_empty`, `BitSet.test_clear` — one operation.
* `BitSet.ofList_ok` — **the set of a list of indices below the capacity holds exactly these.**
-/

namespace SingleAssignment

namespace BitSet

/-- The three answers of an insertion. -/
theorem insert_cases (s : BitSet) (i : Nat) :
    (s.capacity ≤ i ∧ insert i s = .error .indexOutOfBounds s) ∨
    (i < s.capacity ∧ s.test i = true ∧ insert i s = .ok false s) ∨
    (∃ h : i < s.capacity, s.test i = false ∧ insert i s = .ok true (s.add i h)) := by
  by_cases h : i < s.capacity
  · rw [insert, dif_pos h]
    cases htest : s.test i with
    | false => exact .inr (.inr ⟨h, rfl, rfl⟩)
    | true => exact .inr (.inl ⟨h, rfl, rfl⟩)
  · rw [insert, dif_neg h]
    exact .inl ⟨Nat.le_of_not_lt h, rfl⟩

theorem test_eq_true_of_insert_false {s t : BitSet} {i : Nat} (h : insert i s = .ok false t) :
    s.test i = true := by
  rcases insert_cases s i with ⟨-, he⟩ | ⟨-, htest, -⟩ | ⟨_, -, he⟩
  · cases he.symm.trans h
  · exact htest
  · cases he.symm.trans h

theorem insert_eq_error_iff {s t : BitSet} {i : Nat} {fault : Fault} :
    insert i s = .error fault t ↔ s.capacity ≤ i ∧ fault = .indexOutOfBounds ∧ t = s := by
  rcases insert_cases s i with ⟨hi, he⟩ | ⟨hi, -, he⟩ | ⟨hi, -, he⟩
  · rw [he]
    constructor
    · intro h
      cases h
      exact ⟨hi, rfl, rfl⟩
    · rintro ⟨-, rfl, rfl⟩
      rfl
  all_goals
    rw [he]
    exact ⟨fun h => (nomatch h), fun h => absurd hi (Nat.not_lt.2 h.1)⟩

theorem eq_of_insert_error {i : Nat} {s t : BitSet} {e : Fault} (h : insert i s = .error e t) :
    e = .indexOutOfBounds :=
  (insert_eq_error_iff.1 h).2.1

theorem contains_eq_error_iff {s : BitSet} {i : Nat} {fault : Fault} :
    s.contains i = .error fault ↔ s.capacity ≤ i ∧ fault = .indexOutOfBounds := by
  by_cases hi : i < s.capacity
  · rw [contains, if_pos hi]
    exact ⟨fun h => (nomatch h), fun h => absurd hi (Nat.not_lt.2 h.1)⟩
  · rw [contains, if_neg hi, Except.error.injEq, eq_comm]
    exact ⟨fun h => ⟨Nat.le_of_not_lt hi, h⟩, And.right⟩

theorem test_insert {s t : BitSet} {i : Nat} (h : insert i s = .ok true t) (j : Nat) :
    t.test j = true ↔ s.test j = true ∨ j = i := by
  obtain ⟨hi, _, rfl⟩ := insert_true h
  rw [test_add]
  simp

theorem bit_empty (capacity n : Nat) : (empty capacity).bit n = false := by
  rw [bit, empty, Array.getElem?_replicate]
  split <;> simp

theorem bit_clear (s : BitSet) (n : Nat) : s.clear.bit n = false := by
  rw [bit, clear, Array.getElem?_replicate]
  split <;> simp

theorem test_empty (capacity i : Nat) : (empty capacity).test i = false := by
  rw [test_eq_bit, bit_empty, Bool.and_false]

theorem test_clear (s : BitSet) (i : Nat) : s.clear.test i = false := by
  rw [test_eq_bit, bit_clear, Bool.and_false]

/-! ## Inserting below the capacity -/

@[simp] theorem capacity_add (s : BitSet) (i : Nat) (h : i < s.capacity) :
    (s.add i h).capacity = s.capacity := rfl

/-- Inserting an index below the capacity succeeds. -/
theorem insert_ok {s : BitSet} {i : Nat} (h : i < s.capacity) :
    ∃ new t, insert i s = .ok new t ∧ t.capacity = s.capacity ∧
      ∀ j, t.test j = true ↔ s.test j = true ∨ j = i := by
  rcases insert_cases s i with ⟨hi, -⟩ | ⟨-, htest, he⟩ | ⟨_, -, he⟩
  · exact absurd h (Nat.not_lt.2 hi)
  · refine ⟨false, s, he, rfl, fun j => ⟨.inl, ?_⟩⟩
    rintro (hj | rfl)
    · exact hj
    · exact htest
  · refine ⟨true, s.add i h, he, rfl, fun j => ?_⟩
    rw [test_add]
    simp

theorem foldlM_insert_ok {is : List Nat} {s : BitSet} (h : ∀ i ∈ is, i < s.capacity) :
    ∃ t, is.foldlM (fun s i => match insert i s with
        | .ok _ t => .ok t
        | .error e _ => .error e) s = (.ok t : Except Fault BitSet) ∧ t.capacity = s.capacity ∧
      ∀ j, t.test j = true ↔ s.test j = true ∨ j ∈ is := by
  induction is generalizing s with
  | nil => exact ⟨s, rfl, rfl, by simp⟩
  | cons i is ih =>
      obtain ⟨new, t, ht, hcap, htest⟩ := insert_ok (h i List.mem_cons_self)
      obtain ⟨u, hu, hcap', htest'⟩ := ih (s := t) fun j hj => by
        rw [hcap]
        exact h j (List.mem_cons_of_mem i hj)
      refine ⟨u, ?_, hcap'.trans hcap, fun j => ?_⟩
      · rw [List.foldlM_cons]
        simp only [ht]
        exact hu
      · rw [htest', htest, List.mem_cons, or_assoc]

/-- **The set of a list of indices below the capacity holds exactly these.** -/
theorem ofList_ok {capacity : Nat} {is : List Nat} (h : ∀ i ∈ is, i < capacity) :
    ∃ s, ofList capacity is = .ok s ∧ s.capacity = capacity ∧
      ∀ j, s.test j = true ↔ j ∈ is := by
  obtain ⟨s, hs, hcap, htest⟩ := foldlM_insert_ok (s := empty capacity) h
  refine ⟨s, hs, hcap, fun j => ?_⟩
  rw [htest, test_empty]
  simp

end BitSet

end SingleAssignment
