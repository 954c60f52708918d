import SingleAssignment.Fault

/-!
# Bit sets

A set of indices below a fixed capacity, one bit for each, in words of 64 bits.

* `BitSet.insert`, `BitSet.contains` — fail with `Fault.indexOutOfBounds` at and above the capacity.
* `BitSet.test` — membership as a total function, false at and above the capacity; `BitSet.bit` —
  the bit at any position of the words, of which `test` sees those below the capacity.
* `BitSet.free` — the number of indices not in the set; `free_lt_of_insert` says that inserting a
  new index lowers it, which bounds every walk that marks what it visits.
-/

namespace SingleAssignment

/-- A set of indices below `capacity`. -/
structure BitSet where
  capacity : Nat
  words : Array (BitVec 64)
  size_words : words.size = (capacity + 63) / 64
  deriving DecidableEq

namespace BitSet

theorem word_lt (s : BitSet) {i : Nat} (h : i < s.capacity) : i / 64 < s.words.size := by
  rw [s.size_words]; omega

/-- The empty set of the given capacity. -/
def empty (capacity : Nat) : BitSet :=
  ⟨capacity, Array.replicate ((capacity + 63) / 64) 0, by simp⟩

/-- Whether `i` is in the set. -/
def test (s : BitSet) (i : Nat) : Bool :=
  if h : i < s.capacity then
    have := s.word_lt h
    s.words[i / 64].getLsbD (i % 64)
  else false

/-- The set with `i` added. -/
def add (s : BitSet) (i : Nat) (h : i < s.capacity) : BitSet :=
  have := s.word_lt h
  { s with
    words := s.words.set (i / 64) (s.words[i / 64] ||| BitVec.twoPow 64 (i % 64))
    size_words := by simp [s.size_words] }

/-- Add an index; the answer tells whether it is new. -/
def insert (i : Nat) : EStateM Fault BitSet Bool := fun s =>
  if h : i < s.capacity then
    if s.test i then .ok false s else .ok true (s.add i h)
  else .error .indexOutOfBounds s

/-- Whether `i` is in the set; asking beyond the capacity is a fault. -/
def contains (s : BitSet) (i : Nat) : Except Fault Bool :=
  if i < s.capacity then .ok (s.test i) else .error .indexOutOfBounds

/-- The set with all indices removed. -/
def clear (s : BitSet) : BitSet :=
  { s with
    words := Array.replicate s.words.size 0
    size_words := by simp [s.size_words] }

/-- The positions of the bits set in a word, in ascending order. -/
def wordBits (w : BitVec 64) : List Nat := (List.range 64).filter w.getLsbD

/-- Number of indices in the set: the ones in all words, also beyond the capacity. -/
def count (s : BitSet) : Nat := s.words.foldl (fun n w => n + w.cpop.toNat) 0

/-- Whether the set has no index. -/
def isEmpty (s : BitSet) : Bool := s.words.all (· == 0)

/-- The positions of the bits set in all words, in ascending order. -/
def positions (s : BitSet) : List Nat :=
  s.words.toList.zipIdx.flatMap fun (w, k) => (wordBits w).map (64 * k + ·)

/-- The indices in ascending order, up to the first position at or above the capacity. -/
def toList (s : BitSet) : List Nat := s.positions.takeWhile (· < s.capacity)

/-- The set of the given indices. -/
def ofList (capacity : Nat) (is : List Nat) : Except Fault BitSet :=
  is.foldlM (fun s i => match insert i s with
    | .ok _ t => .ok t
    | .error e _ => .error e) (empty capacity)

/-- The indices between braces, such as `{1, 5}`. -/
def text (s : BitSet) : String :=
  "\x7b" ++ ", ".intercalate (s.toList.map toString) ++ "\x7d"

/-! ## What insertion does to membership -/

/-- The bit at position `n` of the words, also at and above the capacity. -/
def bit (s : BitSet) (n : Nat) : Bool := s.words[n / 64]?.any (·.getLsbD (n % 64))

theorem test_eq_bit (s : BitSet) (i : Nat) :
    s.test i = (decide (i < s.capacity) && s.bit i) := by
  by_cases h : i < s.capacity
  · rw [test, dif_pos h, decide_eq_true h, bit, Array.getElem?_eq_getElem (s.word_lt h)]
    rfl
  · rw [test, dif_neg h, decide_eq_false h]
    rfl

theorem test_of_lt {s : BitSet} {i : Nat} (h : i < s.capacity) : s.test i = s.bit i := by
  rw [test_eq_bit, decide_eq_true h, Bool.true_and]

theorem test_eq_false_of_le {s : BitSet} {i : Nat} (h : s.capacity ≤ i) : s.test i = false := by
  rw [test_eq_bit, decide_eq_false (Nat.not_lt.2 h), Bool.false_and]

theorem bit_add (s : BitSet) (i n : Nat) (h : i < s.capacity) :
    (s.add i h).bit n = (s.bit n || decide (n = i)) := by
  have hi := s.word_lt h
  rw [bit, bit, add, Array.getElem?_set]
  by_cases hword : i / 64 = n / 64
  · -- the word that is written: the bit at `i % 64` is the one added
    have hsame : decide (n % 64 = i % 64) = decide (n = i) := by
      rw [decide_eq_decide]
      omega
    rw [if_pos hword, ← hword, Array.getElem?_eq_getElem hi]
    simp [Nat.mod_lt, hsame]
  · have hne : n ≠ i := fun he => hword (congrArg (· / 64) he.symm)
    rw [if_neg hword]
    simp [hne]

theorem test_add (s : BitSet) (i j : Nat) (h : i < s.capacity) :
    (s.add i h).test j = (s.test j || decide (j = i)) := by
  by_cases hj : j < s.capacity
  · rw [test_of_lt hj, test_of_lt (s := s.add i h) hj, bit_add]
  · have hne : j ≠ i := fun he => hj (he ▸ h)
    rw [test_eq_false_of_le (Nat.le_of_not_lt hj),
      test_eq_false_of_le (s := s.add i h) (Nat.le_of_not_lt hj), decide_eq_false hne]
    rfl

theorem insert_true {s t : BitSet} {i : Nat} (h : insert i s = .ok true t) :
    ∃ hi : i < s.capacity, s.test i = false ∧ t = s.add i hi := by
  unfold insert at h
  split at h
  · rename_i hi
    split at h
    · cases h
    · rename_i ht
      cases h
      exact ⟨hi, by simpa using ht, rfl⟩
  · cases h

theorem insert_false {s t : BitSet} {i : Nat} (h : insert i s = .ok false t) : t = s := by
  unfold insert at h
  split at h
  · split at h
    · cases h; rfl
    · cases h
  · cases h

/-- Number of indices below the capacity that are not in the set. -/
def free (s : BitSet) : Nat := (List.range s.capacity).countP fun i => !s.test i

/-- **Inserting a new index leaves fewer indices to insert.** -/
theorem free_lt_of_insert {s t : BitSet} {i : Nat} (h : insert i s = .ok true t) :
    t.free < s.free := by
  obtain ⟨hi, hs, rfl⟩ := insert_true h
  -- of the indices not in `s`, those other than `i` are the ones not in the new set
  have hsplit := List.countP_eq_countP_filter_add (List.range s.capacity) (fun j => !s.test j)
    (fun j => decide (j = i))
  have hrest : (s.add i hi).free =
      ((List.range s.capacity).filter fun j => !decide (j = i)).countP fun j => !s.test j := by
    rw [List.countP_filter]
    exact List.countP_congr fun j _ => by rw [test_add, Bool.not_or]
  have hnew : 0 < ((List.range s.capacity).filter fun j => decide (j = i)).countP
      fun j => !s.test j :=
    List.countP_pos_iff.2 ⟨i, by simp [hi], by simp [hs]⟩
  rw [hrest, free, hsplit]
  exact Nat.lt_add_of_pos_left hnew

end BitSet

end SingleAssignment
