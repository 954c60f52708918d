import Mathlib.Data.Finset.Card
import Mathlib.Data.List.DropRight
import SingleAssignment.Proofs.BitSet

/-!
# What any history of calls leaves in a bit set

A bit set is filled by insertions and emptied by `clear`, mixed with questions about it.  Its words
hold the indices inserted since the last `clear` and no other bit, also where the last word reaches
beyond the capacity, and every answer can be read off that set of indices.

* `BitSet.Call` — one call; `performed` makes a list of them, `held` collects the indices inserted
  since the last `clear`.
* `BitSet.mem_positions`, `BitSet.pairwise_positions`, `BitSet.count_eq_length_positions` — the views
  of all words, through the bit at each position.
* `BitSet.Stores` — the invariant; `Stores.after` keeps it along one call and `stores_performed`
  along a history.
* `BitSet.HoldsIndices` — all answers, read off the set of indices.
* `BitSet.calls_hold_indices` — **after any history the bit set answers as the indices held do.**
-/

namespace SingleAssignment

namespace BitSet

/-- One call on a bit set. -/
inductive Call where
  | insert (i : Nat)
  | clear
  | contains (i : Nat)
  | count
  | toList
  | isEmpty
  deriving DecidableEq

namespace Call

/-- The bit set after a call, whatever it answers. -/
def after (s : BitSet) : Call → BitSet
  | .insert i =>
      match BitSet.insert i s with
      | .ok _ t => t
      | .error _ t => t
  | .clear => s.clear
  | _ => s

/-- The index that a call inserts below the capacity. -/
def index? (capacity : Nat) : Call → Option Nat
  | .insert i => if i < capacity then some i else none
  | _ => none

/-- What a call makes of a set of indices below the capacity. -/
def effect (capacity : Nat) (S : Finset Nat) : Call → Finset Nat
  | .insert i => if i < capacity then Insert.insert i S else S
  | .clear => ∅
  | _ => S

end Call

/-- The bit set after a history of calls. -/
def performed (capacity : Nat) (calls : List Call) : BitSet :=
  calls.foldl (fun s call => call.after s) (empty capacity)

/-- The indices inserted since the last `clear`. -/
def held (capacity : Nat) (calls : List Call) : Finset Nat :=
  ((calls.rtakeWhile (· ≠ .clear)).filterMap (Call.index? capacity)).toFinset

theorem held_concat (capacity : Nat) (calls : List Call) (call : Call) :
    held capacity (calls ++ [call]) = call.effect capacity (held capacity calls) := by
  by_cases hclear : call = .clear
  · subst hclear
    rw [held, List.rtakeWhile_concat_neg _ _ _ (by simp)]
    rfl
  · rw [held, List.rtakeWhile_concat_pos _ _ _ (by simpa using hclear), List.filterMap_append,
      List.toFinset_append, ← held]
    cases call with
    | insert i =>
        by_cases hi : i < capacity
        · simp [Call.index?, Call.effect, hi, Finset.union_comm]
        · simp [Call.index?, Call.effect, hi]
    | clear => exact absurd rfl hclear
    | _ => exact Finset.union_empty _

/-! ## The bits of the words -/

theorem bit_eq_true {s : BitSet} {n : Nat} :
    s.bit n = true ↔ ∃ w, s.words[n / 64]? = some w ∧ w.getLsbD (n % 64) = true :=
  Option.any_eq_true ..

theorem getLsbD_word (s : BitSet) {k b : Nat} (hk : k < s.words.size) (hb : b < 64) :
    s.words[k].getLsbD b = s.bit (64 * k + b) := by
  have hword : (64 * k + b) / 64 = k := by omega
  have hbit : (64 * k + b) % 64 = b := by omega
  rw [bit, hword, hbit, Array.getElem?_eq_getElem hk]
  rfl

theorem ext_bit {s t : BitSet} (hcapacity : s.capacity = t.capacity)
    (hbit : ∀ n, s.bit n = t.bit n) : s = t := by
  have hsize : s.words.size = t.words.size := by rw [s.size_words, t.size_words, hcapacity]
  have hwords : s.words = t.words := by
    refine Array.ext hsize fun k hs ht => BitVec.eq_of_getLsbD_eq fun b hb => ?_
    rw [getLsbD_word s hs hb, getLsbD_word t ht hb, hbit]
  cases s
  cases t
  cases hcapacity
  cases hwords
  rfl

/-! ## Views of all words -/

theorem mem_wordBits {w : BitVec 64} {b : Nat} : b ∈ wordBits w ↔ b < 64 ∧ w.getLsbD b = true := by
  rw [wordBits, List.mem_filter, List.mem_range]

theorem mem_positions {s : BitSet} {n : Nat} : n ∈ s.positions ↔ s.bit n = true := by
  rw [positions, List.mem_flatMap]
  constructor
  · rintro ⟨⟨w, k⟩, hw, hn⟩
    obtain ⟨b, hb, rfl⟩ := List.mem_map.1 hn
    obtain ⟨hlt, hset⟩ := mem_wordBits.1 hb
    have hword : s.words[k]? = some w := by simpa using List.mk_mem_zipIdx_iff_getElem?.1 hw
    obtain ⟨hk, rfl⟩ := Array.getElem?_eq_some_iff.1 hword
    rwa [← getLsbD_word s hk hlt]
  · intro hbit
    obtain ⟨w, hw, hset⟩ := bit_eq_true.1 hbit
    refine ⟨(w, n / 64), List.mk_mem_zipIdx_iff_getElem?.2 (by simpa using hw), ?_⟩
    refine List.mem_map.2 ⟨n % 64, mem_wordBits.2 ⟨Nat.mod_lt _ (by decide), hset⟩, ?_⟩
    exact Nat.div_add_mod n 64

theorem pairwise_positions (s : BitSet) : s.positions.Pairwise (· < ·) := by
  refine List.pairwise_flatMap.2 ⟨fun wk _ => ?_, ?_⟩
  · refine List.pairwise_map.2 ((List.pairwise_lt_range.filter _).imp fun hlt => ?_)
    exact Nat.add_lt_add_left hlt _
  · -- every position in a word lies below every position in a later word
    have horder : (s.words.toList.zipIdx.map Prod.snd).Pairwise (· < ·) := by
      rw [List.zipIdx_map_snd]
      exact List.pairwise_lt_range'
    refine (List.pairwise_map.1 horder).imp fun {wk vl} hlt m hm n hn => ?_
    obtain ⟨b, hb, rfl⟩ := List.mem_map.1 hm
    obtain ⟨c, hc, rfl⟩ := List.mem_map.1 hn
    have := (mem_wordBits.1 hb).1
    omega

theorem cpopNatRec_eq_length (w : BitVec 64) (k : Nat) :
    w.cpopNatRec k 0 = ((List.range k).filter w.getLsbD).length := by
  induction k with
  | zero => rfl
  | succ k ih =>
      rw [BitVec.cpopNatRec_succ, BitVec.cpopNatRec_add, ih, List.range_succ, List.filter_append,
        List.length_append]
      cases hbit : w.getLsbD k <;> simp [hbit]

theorem toNat_cpop_eq (w : BitVec 64) : w.cpop.toNat = (wordBits w).length := by
  rw [BitVec.toNat_cpop, cpopNatRec_eq_length, wordBits]

theorem count_eq_length_positions (s : BitSet) : s.count = s.positions.length := by
  have hlengths : s.words.toList.zipIdx.map
      (fun wk => ((wordBits wk.1).map (64 * wk.2 + ·)).length) =
        s.words.toList.map fun w => w.cpop.toNat := by
    conv_rhs => rw [← List.zipIdx_map_fst 0 s.words.toList, List.map_map]
    refine List.map_congr_left fun wk _ => ?_
    rw [List.length_map, ← toNat_cpop_eq]
    rfl
  rw [positions, List.length_flatMap, hlengths, List.sum_eq_foldl, List.foldl_map, count,
    ← Array.foldl_toList]

theorem isEmpty_iff_bit {s : BitSet} : s.isEmpty = true ↔ ∀ n, s.bit n = false := by
  rw [isEmpty, Array.all_eq_true]
  constructor
  · intro hzero n
    rw [← Bool.not_eq_true, bit_eq_true]
    rintro ⟨w, hw, hset⟩
    obtain ⟨hk, rfl⟩ := Array.getElem?_eq_some_iff.1 hw
    rw [beq_iff_eq.1 (hzero _ hk)] at hset
    simp at hset
  · intro hunset k hk
    refine beq_iff_eq.2 (BitVec.eq_of_getLsbD_eq fun b hb => ?_)
    rw [getLsbD_word s hk hb, hunset]
    simp

/-! ## The invariant -/

/-- The bits set are those of the indices in `S`, which lie below the capacity. -/
structure Stores (S : Finset Nat) (s : BitSet) : Prop where
  below : ∀ i ∈ S, i < s.capacity
  bit_iff : ∀ n, s.bit n = true ↔ n ∈ S

theorem Call.capacity_after (s : BitSet) (call : Call) : (call.after s).capacity = s.capacity := by
  cases call with
  | insert i =>
      rw [Call.after]
      rcases insert_cases s i with ⟨-, he⟩ | ⟨-, -, he⟩ | ⟨hi, -, he⟩
      · rw [he]
      · rw [he]
      · rw [he, capacity_add]
  | _ => rfl

variable {S T : Finset Nat} {s t : BitSet}

theorem Stores.empty (capacity : Nat) : Stores ∅ (empty capacity) :=
  ⟨by simp, fun n => by simp [bit_empty]⟩

theorem Stores.clear (s : BitSet) : Stores ∅ s.clear :=
  ⟨by simp, fun n => by simp [bit_clear]⟩

theorem Stores.add (hs : Stores S s) {i : Nat} (h : i < s.capacity) :
    Stores (Insert.insert i S) (s.add i h) := by
  refine ⟨fun j hj => ?_, fun n => ?_⟩
  · rcases Finset.mem_insert.1 hj with rfl | hj
    · exact h
    · exact hs.below j hj
  · rw [bit_add, Bool.or_eq_true, hs.bit_iff, decide_eq_true_eq, Finset.mem_insert, or_comm]

/-- **One call keeps the invariant.** -/
theorem Stores.after (hs : Stores S s) (call : Call) :
    Stores (call.effect s.capacity S) (call.after s) := by
  cases call with
  | insert i =>
      rw [Call.effect, Call.after]
      rcases insert_cases s i with ⟨hi, he⟩ | ⟨hi, htest, he⟩ | ⟨hi, -, he⟩
      · rw [he, if_neg (Nat.not_lt.2 hi)]
        exact hs
      · have hmem : i ∈ S := (hs.bit_iff i).1 (test_of_lt hi ▸ htest)
        rw [he, if_pos hi, Finset.insert_eq_of_mem hmem]
        exact hs
      · rw [he, if_pos hi]
        exact hs.add hi
  | clear => exact Stores.clear s
  | _ => exact hs

theorem performed_concat (capacity : Nat) (calls : List Call) (call : Call) :
    performed capacity (calls ++ [call]) = call.after (performed capacity calls) :=
  List.foldl_concat ..

/-- **A history keeps the capacity.** -/
theorem capacity_performed (capacity : Nat) (calls : List Call) :
    (performed capacity calls).capacity = capacity := by
  induction calls using List.reverseRecOn with
  | nil => rfl
  | append_singleton calls call ih => rw [performed_concat, call.capacity_after, ih]

/-- **A history keeps the invariant.** -/
theorem stores_performed (capacity : Nat) (calls : List Call) :
    Stores (held capacity calls) (performed capacity calls) := by
  induction calls using List.reverseRecOn with
  | nil => exact Stores.empty capacity
  | append_singleton calls call ih =>
      have hstep := ih.after call
      rwa [capacity_performed, ← held_concat, ← performed_concat] at hstep

/-! ## Answers -/

/-- All answers of a bit set of the given capacity, where `S` are the indices held. -/
structure HoldsIndices (capacity : Nat) (S : Finset Nat) (s : BitSet) : Prop where
  capacity_eq : s.capacity = capacity
  below : ∀ i ∈ S, i < capacity
  insert_fails : ∀ i fault t, insert i s = .error fault t ↔
    capacity ≤ i ∧ fault = .indexOutOfBounds ∧ t = s
  insert_answers : ∀ i < capacity, ∃ t, insert i s = .ok (decide (i ∉ S)) t
  contains_fails : ∀ i fault, s.contains i = .error fault ↔
    capacity ≤ i ∧ fault = .indexOutOfBounds
  contains_answers : ∀ i < capacity, s.contains i = .ok (decide (i ∈ S))
  mem_toList : ∀ i, i ∈ s.toList ↔ i ∈ S
  increasing : s.toList.Pairwise (· < ·)
  count_eq : s.count = S.card
  isEmpty_iff : s.isEmpty = true ↔ S = ∅
  /-- An index that is let through has its word. -/
  word_in_range : ∀ i < capacity, i / 64 < s.words.size

namespace Stores

theorem bit_eq (hs : Stores S s) (n : Nat) : s.bit n = decide (n ∈ S) := by
  rw [Bool.eq_iff_iff, hs.bit_iff, decide_eq_true_eq]

/-- No position is cut off: all of them lie below the capacity. -/
theorem toList_eq_positions (hs : Stores S s) : s.toList = s.positions := by
  refine List.takeWhile_eq_self_iff.2 fun n hn => decide_eq_true ?_
  exact hs.below n ((hs.bit_iff n).1 (mem_positions.1 hn))

theorem mem_toList_iff (hs : Stores S s) (n : Nat) : n ∈ s.toList ↔ n ∈ S := by
  rw [hs.toList_eq_positions, mem_positions, hs.bit_iff]

theorem pairwise_toList (hs : Stores S s) : s.toList.Pairwise (· < ·) := by
  rw [hs.toList_eq_positions]
  exact pairwise_positions s

theorem count_eq_card (hs : Stores S s) : s.count = S.card := by
  have hnodup : s.positions.Nodup := (pairwise_positions s).imp Nat.ne_of_lt
  have hmembers : s.positions.toFinset = S := by
    ext n
    rw [List.mem_toFinset, mem_positions, hs.bit_iff]
  rw [count_eq_length_positions, ← List.toFinset_card_of_nodup hnodup, hmembers]

theorem isEmpty_iff_eq_empty (hs : Stores S s) : s.isEmpty = true ↔ S = ∅ := by
  rw [isEmpty_iff_bit, Finset.eq_empty_iff_forall_notMem]
  exact forall_congr' fun n => by rw [hs.bit_eq, decide_eq_false_iff_not]

/-- Bit sets are equal iff their capacities and the sets they store are. -/
theorem eq_iff (hs : Stores S s) (ht : Stores T t) :
    s = t ↔ s.capacity = t.capacity ∧ S = T := by
  constructor
  · rintro rfl
    refine ⟨rfl, ?_⟩
    ext n
    rw [← hs.bit_iff, ht.bit_iff]
  · rintro ⟨hcapacity, rfl⟩
    exact ext_bit hcapacity fun n => by rw [hs.bit_eq, ht.bit_eq]

/-- **The invariant answers every call.** -/
theorem holdsIndices (hs : Stores S s) : HoldsIndices s.capacity S s where
  capacity_eq := rfl
  below := hs.below
  insert_fails := fun _ _ _ => insert_eq_error_iff
  insert_answers := fun i hi => by
    rcases insert_cases s i with ⟨hout, -⟩ | ⟨-, htest, he⟩ | ⟨_, htest, he⟩
    · exact absurd hi (Nat.not_lt.2 hout)
    all_goals
      rw [test_of_lt hi, hs.bit_eq] at htest
      rw [he, decide_not, htest]
      exact ⟨_, rfl⟩
  contains_fails := fun _ _ => contains_eq_error_iff
  contains_answers := fun i hi => by rw [contains, if_pos hi, test_of_lt hi, hs.bit_eq]
  mem_toList := hs.mem_toList_iff
  increasing := hs.pairwise_toList
  count_eq := hs.count_eq_card
  isEmpty_iff := hs.isEmpty_iff_eq_empty
  word_in_range := fun _ hi => s.word_lt hi

end Stores

/-- **After any history the bit set answers as the indices held do**, and it equals the bit set after
another history iff the capacities and the indices held are equal. -/
theorem calls_hold_indices (capacity : Nat) (calls : List Call) :
    HoldsIndices capacity (held capacity calls) (performed capacity calls) ∧
      ∀ capacity' calls', performed capacity calls = performed capacity' calls' ↔
        capacity = capacity' ∧ held capacity calls = held capacity' calls' := by
  have hstores := stores_performed capacity calls
  refine ⟨?_, fun capacity' calls' => ?_⟩
  · have hanswers := hstores.holdsIndices
    rwa [capacity_performed] at hanswers
  · rw [hstores.eq_iff (stores_performed capacity' calls'), capacity_performed, capacity_performed]

/-- Indices on both sides of a word border, refused ones inside and outside the last word, and
insertions before and after a `clear`. -/
def straddling : List Call :=
  [.insert 63, .insert 64, .insert 70, .clear, .insert 69, .contains 63, .insert 0, .insert 69,
    .insert 127, .insert 128, .count]

theorem straddling_holds_indices :
    held 70 straddling = {0, 69} ∧ (performed 70 straddling).toList = [0, 69] ∧
      HoldsIndices 70 {0, 69} (performed 70 straddling) ∧
      performed 70 straddling = performed 70 [.insert 69, .insert 0] ∧
      performed 70 straddling ≠ performed 71 straddling := by
  have hheld : held 70 straddling = {0, 69} := by decide +kernel
  have hlist : (performed 70 straddling).toList = [0, 69] := by decide +kernel
  have hall := calls_hold_indices 70 straddling
  refine ⟨hheld, hlist, hheld ▸ hall.1, (hall.2 _ _).2 ⟨rfl, by decide +kernel⟩, fun h => ?_⟩
  exact absurd ((hall.2 _ _).1 h).1 (by decide)

end BitSet

end SingleAssignment
