import Mathlib.Data.List.Forall2
import Mathlib.Data.List.Nodup
import SingleAssignment.Code.ControlFlow

/-!
# Destinations of instructions

The destinations of a list of instructions, read in order or by position.  Two lists that assign at
the same positions have their destinations side by side.

* `destinations` — all destinations, in order.
* `destinationAt` — the destination at a position.
* `mem_zip_destinations`, `exists_of_mem_zip_destinations` — destinations at one position stand at
  one place of both lists, and conversely.
-/

namespace SingleAssignment

variable {τ : Type} {is us : List (Instruction τ)}

/-- The destinations of a list of instructions, in order. -/
def destinations (is : List (Instruction τ)) : List Local := is.filterMap Instruction.destination?

theorem destinations_append (is js : List (Instruction τ)) :
    destinations (is ++ js) = destinations is ++ destinations js :=
  List.filterMap_append

theorem destinations_cons (i : Instruction τ) (is : List (Instruction τ)) :
    destinations (i :: is) = i.destination?.toList ++ destinations is := by
  unfold destinations
  cases hi : i.destination? <;> simp [hi]

theorem length_destinations_eq_countP (is : List (Instruction τ)) :
    (destinations is).length = is.countP Instruction.isAssignment :=
  List.length_filterMap_eq_countP

/-- The local that the instruction at a position writes. -/
def destinationAt (is : List (Instruction τ)) (k : Nat) : Option Local :=
  is[k]?.bind Instruction.destination?

theorem destinationAt_eq (is : List (Instruction τ)) (k : Nat) :
    destinationAt is k = (is.map Instruction.destination?)[k]?.join := by
  rw [destinationAt, List.getElem?_map]
  cases is[k]? <;> rfl

theorem destinations_eq (is : List (Instruction τ)) :
    destinations is = (is.map Instruction.destination?).filterMap id := by
  rw [List.filterMap_map]
  rfl

theorem mem_destinations {k : Nat} {y : Local}
    (h : destinationAt is k = some y) : y ∈ destinations is := by
  obtain ⟨u, hu, hy⟩ := Option.bind_eq_some_iff.1 h
  exact List.mem_filterMap.2 ⟨u, List.mem_of_getElem? hu, hy⟩

theorem exists_destinationAt {y : Local} (h : y ∈ destinations is) :
    ∃ k, destinationAt is k = some y := by
  obtain ⟨u, hu, hy⟩ := List.mem_filterMap.1 h
  obtain ⟨k, hk⟩ := List.mem_iff_getElem?.1 hu
  exact ⟨k, by rw [destinationAt, hk, Option.bind_some, hy]⟩

/-- Distinct destinations tell positions apart. -/
theorem eq_of_destinationAt_eq (h : (destinations is).Nodup)
    {k k' : Nat} {x : Local} (hk : destinationAt is k = some x)
    (hk' : destinationAt is k' = some x) : k = k' := by
  have hlt : ∀ {k k' : Nat}, k < k' → destinationAt is k = some x →
      destinationAt is k' ≠ some x := by
    intro k k' hkk hk hk'
    obtain ⟨i, hi, hix⟩ := Option.bind_eq_some_iff.1 hk
    obtain ⟨j, hj, hjx⟩ := Option.bind_eq_some_iff.1 hk'
    obtain ⟨hik, rfl⟩ := List.getElem?_eq_some_iff.1 hi
    obtain ⟨hjk, rfl⟩ := List.getElem?_eq_some_iff.1 hj
    unfold destinations List.Nodup at h
    rw [List.pairwise_filterMap, List.pairwise_iff_getElem] at h
    exact h k k' hik hjk hkk x hix x hjx rfl
  rcases Nat.lt_trichotomy k k' with hkk | rfl | hkk
  · exact absurd hk' (hlt hkk hk)
  · rfl
  · exact absurd hk (hlt hkk hk')

theorem destinationAt_program {p : Program τ} {k : Nat} {i : Instruction τ}
    (hi : p.at? k = some i) : destinationAt p.instructions.toList k = i.destination? := by
  rw [destinationAt, Array.getElem?_toList]
  show (p.at? k).bind _ = _
  rw [hi, Option.bind_some]

theorem Program.mem_locals_of_operand {p : Program τ} {k : Nat} {i : Instruction τ} {x : Local}
    (hi : p.at? k = some i) (hx : x ∈ i.operands) : x ∈ p.locals := by
  refine mem_locals.2 ⟨i, ?_, List.mem_append_right _ hx⟩
  exact Array.mem_toList_iff.2 (Array.mem_of_getElem? hi)

/-! ## Two lists side by side -/

theorem length_destinations
    (h : List.Forall₂ (fun i u => u.destination?.isSome = i.destination?.isSome) is us) :
    (destinations us).length = (destinations is).length := by
  induction h with
  | nil => rfl
  | cons hu _ ih =>
      rw [destinations_cons, destinations_cons, List.length_append, List.length_append, ih,
        Option.length_toList, Option.length_toList, hu]

/-- Destinations at one position stand side by side. -/
theorem mem_zip_destinations
    (h : List.Forall₂ (fun i u => u.destination?.isSome = i.destination?.isSome) is us) {k : Nat}
    {x y : Local} (hx : destinationAt is k = some x) (hy : destinationAt us k = some y) :
    (y, x) ∈ (destinations us).zip (destinations is) := by
  induction h generalizing k with
  | nil => cases hx
  | @cons i u is us hu _ ih =>
      have hlen : u.destination?.toList.length = i.destination?.toList.length := by
        rw [Option.length_toList, Option.length_toList, hu]
      rw [destinations_cons, destinations_cons, List.zip_append hlen, List.mem_append]
      cases k with
      | zero =>
          have hx : i.destination? = some x := hx
          have hy : u.destination? = some y := hy
          rw [hx, hy]
          exact .inl (List.mem_singleton.2 rfl)
      | succ k => exact .inr (ih hx hy)

/-- Destinations side by side stand at one position. -/
theorem exists_of_mem_zip_destinations
    (h : List.Forall₂ (fun i u => u.destination?.isSome = i.destination?.isSome) is us)
    {x y : Local} (hmem : (y, x) ∈ (destinations us).zip (destinations is)) :
    ∃ k, destinationAt is k = some x ∧ destinationAt us k = some y := by
  induction h with
  | nil => cases hmem
  | @cons i u is us hu _ ih =>
      have hlen : u.destination?.toList.length = i.destination?.toList.length := by
        rw [Option.length_toList, Option.length_toList, hu]
      rw [destinations_cons, destinations_cons, List.zip_append hlen, List.mem_append] at hmem
      rcases hmem with hhead | htail
      · obtain ⟨hy, hx⟩ := List.of_mem_zip hhead
        exact ⟨0, Option.mem_toList.1 hx, Option.mem_toList.1 hy⟩
      · obtain ⟨k, hx, hy⟩ := ih htail
        exact ⟨k + 1, hx, hy⟩

end SingleAssignment
