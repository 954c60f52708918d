import Mathlib.Data.List.Chain
import SingleAssignment.Code.Program

/-!
# Where blocks start

A block starts at the first instruction, behind every branch and at every label.  This is said of
positions in a list of instructions and without blocks.

* `Leads` — a block starts at a position.
* `offsetsMet` — the offsets that a scan over the instructions comes upon, one instruction after the
  other: the offset of an instruction at which a block starts, then the target of a branch.
* `offsetsMet_concat` — what one more instruction adds.
-/

namespace SingleAssignment

variable {τ : Type} {labels : Std.TreeSet Offset}

/-- A block starts at position `k`: at the first instruction, behind a branch and at a label. -/
def Leads (labels : Std.TreeSet Offset) (is : List (Instruction τ)) (k : Nat) : Prop :=
  ∃ i, is[k]? = some i ∧
    (k = 0 ∨ is[k - 1]?.any Instruction.isBranch = true ∨ i.offset ∈ labels)

instance (is : List (Instruction τ)) (k : Nat) : Decidable (Leads labels is k) :=
  match h : is[k]? with
  | none => isFalse fun ⟨_, hi, _⟩ => by rw [h] at hi; cases hi
  | some i =>
      decidable_of_iff (k = 0 ∨ is[k - 1]?.any Instruction.isBranch = true ∨ i.offset ∈ labels)
        ⟨fun hk => ⟨i, h, hk⟩, fun ⟨_, hi, hk⟩ => by rw [h] at hi; cases hi; exact hk⟩

theorem Leads.lt_length {is : List (Instruction τ)} {k : Nat} (h : Leads labels is k) :
    k < is.length := by
  obtain ⟨i, hi, -⟩ := h
  exact (List.getElem?_eq_some_iff.1 hi).1

theorem leads_zero (i : Instruction τ) (rest : List (Instruction τ)) :
    Leads labels (i :: rest) 0 :=
  ⟨i, rfl, .inl rfl⟩

theorem leads_append_of_lt {is js : List (Instruction τ)} {k : Nat} (hk : k < is.length) :
    Leads labels (is ++ js) k ↔ Leads labels is k := by
  unfold Leads
  rw [List.getElem?_append_left hk, List.getElem?_append_left (by omega)]

/-- Whether one more instruction starts a block. -/
theorem leads_concat {is : List (Instruction τ)} (i : Instruction τ) (hne : is ≠ []) :
    Leads labels (is ++ [i]) is.length ↔
      is.getLast?.any Instruction.isBranch = true ∨ i.offset ∈ labels := by
  have hpos := List.length_pos_iff.2 hne
  unfold Leads
  rw [List.getElem?_concat_length, List.getElem?_append_left (by omega),
    ← List.getLast?_eq_getElem?]
  constructor
  · rintro ⟨j, hj, hzero | hlead⟩
    · omega
    · cases hj
      exact hlead
  · intro hlead
    exact ⟨i, rfl, .inr hlead⟩

/-! ## Offsets in the order in which a scan meets them -/

/-- The offsets that the instructions bring up: the own offset of an instruction that starts a
block, then the target of a branch. -/
def offsetsMet (labels : Std.TreeSet Offset) (is : List (Instruction τ)) : List Offset :=
  is.zipIdx.flatMap fun (i, k) =>
    (if Leads labels is k then [i.offset] else []) ++ (i.branch?.map (·.2)).toList

theorem offsetsMet_concat (labels : Std.TreeSet Offset) (is : List (Instruction τ))
    (i : Instruction τ) :
    offsetsMet labels (is ++ [i]) =
      offsetsMet labels is ++ (if Leads labels (is ++ [i]) is.length then [i.offset] else []) ++
        (i.branch?.map (·.2)).toList := by
  unfold offsetsMet
  rw [List.zipIdx_append, List.flatMap_append, List.append_assoc]
  congr 1
  · refine List.flatMap_congr fun q hq => ?_
    have hlt : q.2 < is.length := by
      have := List.snd_lt_of_mem_zipIdx hq
      omega
    simp only [leads_append_of_lt hlt]
  · simp

/-- Of a sequence with one more element, the first occurrences. -/
theorem eraseDups_concat (os : List Offset) (o : Offset) :
    (os ++ [o]).eraseDups = if o ∈ os then os.eraseDups else os.eraseDups ++ [o] := by
  rw [List.eraseDups_append]
  split
  · rename_i ho
    simp [List.removeAll, ho]
  · rename_i ho
    simp [List.removeAll, ho, List.eraseDups_cons]

end SingleAssignment
