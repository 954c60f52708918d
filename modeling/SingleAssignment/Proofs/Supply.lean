import Mathlib.Data.Nat.Nth
import Mathlib.Data.Set.Card
import SingleAssignment.Proofs.Outcome
import SingleAssignment.Supply

/-!
# What a supply hands out

A supply that starts outside a set of locals hands out the numbers outside that set, from 1 upwards
and without a gap.

* `Supply.Mints` — a list of locals taken from a supply one after the other.
* `Supply.Free` — the numbers outside the set.
* `Supply.Holds.fresh_cases` — a supply hands out a local iff it holds one.
* `Supply.Mints.eq_nth` — **the local handed out at place `k` has the `k`-th smallest free number.**
-/

namespace SingleAssignment

/-- All locals. -/
def everyLocal : List Local := (List.range UInt32.size).map fun n => ⟨UInt32.ofNat n⟩

theorem mem_everyLocal (x : Local) : x ∈ everyLocal :=
  List.mem_map.2 ⟨x.index.toNat, List.mem_range.2 x.index.toNat_lt_size, by simp⟩

namespace Supply

/-- The locals `xs` are minted one after the other. -/
inductive Mints : Supply → List Local → Supply → Prop where
  | nil (s : Supply) : Mints s [] s
  | cons {s t s' : Supply} {x : Local} {xs : List Local} :
      fresh s = .ok x t → Mints t xs s' → Mints s (x :: xs) s'

theorem mints_of_fresh {s s' : Supply} {x : Local} (h : fresh s = .ok x s') : s.Mints [x] s' :=
  .cons h (.nil s')

theorem mints_of_mint {n : Nat} {s s' : Supply} {xs : List Local}
    (h : mint n s = .ok xs s') : s.Mints xs s' := by
  induction n generalizing s xs with
  | zero =>
      obtain ⟨rfl, rfl⟩ := Outcome.of_run_pure h
      exact .nil s
  | succ n ih =>
      obtain ⟨x, t, hx, h⟩ := Outcome.of_run_bind h
      obtain ⟨ys, t', hys, h⟩ := Outcome.of_run_bind h
      obtain ⟨rfl, rfl⟩ := Outcome.of_run_pure h
      exact .cons hx (ih hys)

theorem length_of_mint {n : Nat} {s s' : Supply} {xs : List Local}
    (h : mint n s = .ok xs s') : xs.length = n := by
  induction n generalizing s xs with
  | zero =>
      obtain ⟨rfl, rfl⟩ := Outcome.of_run_pure h
      rfl
  | succ n ih =>
      obtain ⟨x, t, -, h⟩ := Outcome.of_run_bind h
      obtain ⟨ys, t', hys, h⟩ := Outcome.of_run_bind h
      obtain ⟨rfl, rfl⟩ := Outcome.of_run_pure h
      rw [List.length_cons, ih hys]

/-- Locals can be minted in two portions. -/
theorem mint_add (n m : Nat) :
    mint (n + m) = do
      let xs ← mint n
      let ys ← mint m
      return xs ++ ys := by
  induction n with
  | zero => simp [mint]
  | succ n ih =>
      rw [Nat.succ_add]
      simp only [mint, ih, bind_assoc, pure_bind, List.cons_append]

theorem reserve_of_le {n : Nat} (h : n ≤ largestRequest) : reserve n = mint n := if_pos h

theorem reserve_of_lt {n : Nat} (h : largestRequest < n) (s : Supply) :
    reserve n s = .error .capacityOverflow s := by
  rw [reserve, if_neg (Nat.not_le.2 h)]
  rfl

theorem reserve_ok {n : Nat} {s s' : Supply} {xs : List Local} (h : reserve n s = .ok xs s') :
    n ≤ largestRequest ∧ mint n s = .ok xs s' := by
  rcases Nat.lt_or_ge largestRequest n with hlt | hle
  · rw [reserve_of_lt hlt] at h
    cases h
  · exact ⟨hle, reserve_of_le hle ▸ h⟩

theorem Mints.append {s t s' : Supply} {xs ys : List Local} (hx : s.Mints xs t)
    (hy : t.Mints ys s') : s.Mints (xs ++ ys) s' := by
  induction hx with
  | nil => exact hy
  | cons h _ ih => exact .cons h (ih hy)

/-! ## One local -/

theorem toNat_of_successor?_eq_none {n : UInt32} (h : successor? n = none) :
    n.toNat + 1 = 2 ^ 32 := by
  unfold successor? at h
  split at h
  · rename_i hn
    rw [hn]
    rfl
  · cases h

theorem firstFree_eq_some {used : LocalSet} {c n : UInt32} (h : firstFree used c = some n) :
    c.toNat ≤ n.toNat ∧ ⟨n⟩ ∉ used ∧
      ∀ m : UInt32, c.toNat ≤ m.toNat → m.toNat < n.toNat → ⟨m⟩ ∈ used := by
  fun_induction firstFree used c with
  | case1 c hc c' hsucc _ _ ih =>
      have hc' := toNat_of_successor? hsucc
      obtain ⟨hle, hn, hbetween⟩ := ih h
      refine ⟨by omega, hn, fun m hcm hmn => ?_⟩
      rcases Nat.eq_or_lt_of_le hcm with he | hlt
      · rw [← UInt32.toNat_inj.1 he]
        exact Std.TreeSet.mem_iff_contains.2 hc
      · exact hbetween m (by omega) hmn
  | case2 => cases h
  | case3 c hc =>
      cases h
      exact ⟨Nat.le_refl _, fun hmem => hc (Std.TreeSet.mem_iff_contains.1 hmem),
        fun m hcm hmc => by omega⟩

theorem firstFree_eq_none {used : LocalSet} {c m : UInt32} (h : firstFree used c = none)
    (hm : c.toNat ≤ m.toNat) : ⟨m⟩ ∈ used := by
  fun_induction firstFree used c with
  | case1 c hc c' hsucc _ _ ih =>
      have hc' := toNat_of_successor? hsucc
      rcases Nat.eq_or_lt_of_le hm with he | hlt
      · rw [← UInt32.toNat_inj.1 he]
        exact Std.TreeSet.mem_iff_contains.2 hc
      · exact ih h (by omega)
  | case2 c hc hsucc =>
      have hlast := toNat_of_successor?_eq_none hsucc
      have hlt := m.toNat_lt
      rw [← UInt32.toNat_inj.1 (show c.toNat = m.toNat by omega)]
      exact Std.TreeSet.mem_iff_contains.2 hc
  | case3 => cases h

theorem fresh_eq_ok {s s' : Supply} {x : Local} (h : fresh s = .ok x s') :
    ∃ c, s.next = some c ∧ firstFree s.used c = some x.index ∧
      s'.used = s.used.insert x ∧ s'.next = successor? x.index := by
  unfold fresh at h
  split at h
  · rename_i n hn
    obtain ⟨c, hc, hn⟩ := Option.bind_eq_some_iff.1 hn
    cases h
    exact ⟨c, hc, hn, rfl, rfl⟩
  · cases h

/-! ## The numbers handed out -/

theorem toNat_injective : Function.Injective fun x : Local => x.index.toNat := by
  rintro ⟨x⟩ ⟨y⟩ h
  exact congrArg Local.mk (UInt32.toNat_inj.1 h)

instance : Finite Local :=
  Finite.of_injective (fun x : Local => x.index.toFin) fun _ _ h =>
    toNat_injective (congrArg Fin.val h)

/-- The number of a local outside `used`, 0 apart. -/
def Free (used : LocalSet) (n : Nat) : Prop := 1 ≤ n ∧ n < 2 ^ 32 ∧ ⟨UInt32.ofNat n⟩ ∉ used

instance (used : LocalSet) : DecidablePred (Free used) :=
  fun n => inferInstanceAs (Decidable (1 ≤ n ∧ n < 2 ^ 32 ∧ ⟨UInt32.ofNat n⟩ ∉ used))

theorem free_toNat {used : LocalSet} {n : UInt32} :
    Free used n.toNat ↔ 1 ≤ n.toNat ∧ ⟨n⟩ ∉ used := by
  unfold Free
  rw [UInt32.ofNat_toNat]
  exact ⟨fun h => ⟨h.1, h.2.2⟩, fun h => ⟨h.1, n.toNat_lt, h.2⟩⟩

/-- There are as many free numbers as locals from 1 on outside `used`. -/
theorem count_free (used : LocalSet) :
    Nat.count (Free used) (2 ^ 32) = {x : Local | 1 ≤ x.index.toNat ∧ x ∉ used}.ncard := by
  rw [Nat.count_eq_card_filter_range, ← Set.ncard_coe_finset]
  symm
  refine Set.ncard_congr (fun x _ => x.index.toNat) ?_ ?_ ?_
  · intro x hx
    rw [Finset.mem_coe, Finset.mem_filter, Finset.mem_range]
    exact ⟨x.index.toNat_lt, free_toNat.2 hx⟩
  · exact fun x y _ _ heq => toNat_injective heq
  · intro n hn
    rw [Finset.mem_coe, Finset.mem_filter] at hn
    obtain ⟨-, hpos, hlt, hnot⟩ := hn
    exact ⟨⟨.ofNat n⟩, ⟨(UInt32.toNat_ofNat_of_lt hlt).symm ▸ hpos, hnot⟩,
      UInt32.toNat_ofNat_of_lt hlt⟩

/-- The supply has handed out the `k` smallest free numbers and nothing else. -/
structure HandedOut (used : LocalSet) (k : Nat) (s : Supply) : Prop where
  keeps : ∀ x ∈ used, x ∈ s.used
  below : ∀ x ∈ s.used, x ∉ used → ∀ c, s.next = some c → x.index.toNat < c.toNat
  count : ∀ c, s.next = some c → 1 ≤ c.toNat ∧ Nat.count (Free used) c.toNat = k
  spent : s.next = none → Nat.count (Free used) (2 ^ 32) = k

theorem handedOut_ofUsed (used : LocalSet) : (ofUsed used).HandedOut used 0 := by
  refine ⟨fun x hx => hx, fun x hx hn => absurd hx hn, fun c hc => ?_, fun hnone => nomatch hnone⟩
  cases hc
  refine ⟨Nat.le_refl 1, ?_⟩
  rw [show (1 : UInt32).toNat = 0 + 1 from rfl, Nat.count_succ, Nat.count_zero,
    if_neg fun h => absurd h.1 (by decide)]

theorem count_eq_of_not_free {used : LocalSet} {c n : Nat} (hle : c ≤ n)
    (h : ∀ m, c ≤ m → m < n → ¬ Free used m) :
    Nat.count (Free used) n = Nat.count (Free used) c := by
  induction n, hle using Nat.le_induction with
  | base => rfl
  | succ n hcn ih =>
      rw [Nat.count_succ, if_neg (h n hcn (Nat.lt_succ_self n)), Nat.add_zero]
      exact ih fun m hcm hmn => h m hcm (Nat.lt_succ_of_lt hmn)

theorem HandedOut.fresh {used : LocalSet} {k : Nat} {s s' : Supply} {x : Local}
    (h : s.HandedOut used k) (hx : fresh s = .ok x s') :
    Free used x.index.toNat ∧ Nat.count (Free used) x.index.toNat = k ∧
      s'.HandedOut used (k + 1) := by
  obtain ⟨c, hc, hfirst, hused, hnext⟩ := fresh_eq_ok hx
  obtain ⟨hle, hnot, hbetween⟩ := firstFree_eq_some hfirst
  obtain ⟨hpos, hcount⟩ := h.count c hc
  have hfree : Free used x.index.toNat :=
    free_toNat.2 ⟨by omega, fun hmem => hnot (h.keeps _ hmem)⟩
  have hk : Nat.count (Free used) x.index.toNat = k := by
    -- a number passed over is taken, and not by a local handed out before, so it is not free
    rw [count_eq_of_not_free hle fun m hcm hmx hm => ?_, hcount]
    have hm32 : (UInt32.ofNat m).toNat = m := UInt32.toNat_ofNat_of_lt hm.2.1
    have hmem := hbetween (UInt32.ofNat m) (by omega) (by omega)
    have hlt := h.below _ hmem hm.2.2 c hc
    simp only at hlt
    omega
  refine ⟨hfree, hk, fun y hy => ?_, fun y hy hyn c' hc' => ?_, fun c' hc' => ?_, fun hnone => ?_⟩
  · rw [hused, Std.TreeSet.mem_insert]
    exact .inr (h.keeps y hy)
  · have hc'' := toNat_of_successor? (hnext ▸ hc')
    rw [hused, Std.TreeSet.mem_insert] at hy
    rcases hy with hy | hy
    · rw [← Std.LawfulEqOrd.eq_of_compare hy]
      omega
    · have := h.below y hy hyn c hc
      omega
  · have hc'' := toNat_of_successor? (hnext ▸ hc')
    rw [hc'', Nat.count_succ, if_pos hfree, hk]
    exact ⟨by omega, rfl⟩
  · rw [← toNat_of_successor?_eq_none (hnext ▸ hnone), Nat.count_succ, if_pos hfree, hk]

/-! ## What is left -/

theorem fresh_eq_error {s t : Supply} {e : Fault} (h : fresh s = .error e t) :
    e = .localsExhausted ∧ t = s ∧ ∀ c, s.next = some c → firstFree s.used c = none := by
  unfold fresh at h
  split at h
  · cases h
  · rename_i hnone
    cases h
    exact ⟨rfl, rfl, fun c hc => by rwa [hc] at hnone⟩

/-- A supply that fails has handed out all free numbers. -/
theorem HandedOut.eq_count_of_error {used : LocalSet} {k : Nat} {s t : Supply} {e : Fault}
    (h : s.HandedOut used k) (he : Supply.fresh s = .error e t) :
    Nat.count (Free used) (2 ^ 32) = k := by
  obtain ⟨-, -, hnone⟩ := fresh_eq_error he
  cases hnext : s.next with
  | none => exact h.spent hnext
  | some c =>
      -- from the next candidate on everything is taken, and not by a local handed out before
      rw [← (h.count c hnext).2]
      refine count_eq_of_not_free (Nat.le_of_lt c.toNat_lt) fun m hcm _ hm => ?_
      have hm32 : (UInt32.ofNat m).toNat = m := UInt32.toNat_ofNat_of_lt hm.2.1
      have hmem := firstFree_eq_none (hnone c hnext) (m := UInt32.ofNat m) (by omega)
      have hlt := h.below _ hmem hm.2.2 c hnext
      simp only at hlt
      omega

/-- The supply has `n` more locals to hand out. -/
def Holds (used : LocalSet) (n : Nat) (s : Supply) : Prop :=
  ∃ k, s.HandedOut used k ∧ k + n = Nat.count (Free used) (2 ^ 32)

theorem holds_ofUsed (used : LocalSet) :
    (ofUsed used).Holds used (Nat.count (Free used) (2 ^ 32)) :=
  ⟨0, handedOut_ofUsed used, Nat.zero_add _⟩

/-- **A supply hands out a local iff it holds one.** -/
theorem Holds.fresh_cases {used : LocalSet} {n : Nat} {s : Supply} (h : s.Holds used n) :
    (∃ x s' m, n = m + 1 ∧ fresh s = .ok x s' ∧ s'.Holds used m) ∨
      n = 0 ∧ fresh s = .error .localsExhausted s := by
  obtain ⟨k, hk, htotal⟩ := h
  cases hfresh : fresh s with
  | ok x s' =>
      obtain ⟨hfree, hcount, hk'⟩ := hk.fresh hfresh
      have hlt : Nat.count (Free used) x.index.toNat < Nat.count (Free used) (2 ^ 32) :=
        Nat.count_strict_mono hfree x.index.toNat_lt
      exact .inl ⟨x, s', n - 1, by omega, rfl, k + 1, hk', by omega⟩
  | error e t =>
      have hspent := hk.eq_count_of_error hfresh
      obtain ⟨rfl, rfl, -⟩ := fresh_eq_error hfresh
      exact .inr ⟨by omega, rfl⟩

theorem Mints.count_eq {used : LocalSet} {k : Nat} {s s' : Supply} {xs : List Local}
    (hm : s.Mints xs s') (h : s.HandedOut used k) {j : Nat} {x : Local} (hx : xs[j]? = some x) :
    Free used x.index.toNat ∧ Nat.count (Free used) x.index.toNat = k + j := by
  induction hm generalizing k j with
  | nil => cases hx
  | cons hf _ ih =>
      obtain ⟨hfree, hcount, hnext⟩ := h.fresh hf
      cases j with
      | zero =>
          cases hx
          exact ⟨hfree, hcount⟩
      | succ j =>
          obtain ⟨hfree, hcount⟩ := ih hnext hx
          exact ⟨hfree, by omega⟩

theorem Holds.not_mem {used : LocalSet} {n : Nat} {s s' : Supply} {xs : List Local}
    (h : s.Holds used n) (hm : s.Mints xs s') {x : Local} (hx : x ∈ xs) : x ∉ used := by
  obtain ⟨k, hk, -⟩ := h
  obtain ⟨j, hj⟩ := List.mem_iff_getElem?.1 hx
  exact (free_toNat.1 (hm.count_eq hk hj).1).2

variable {used : LocalSet} {xs : List Local} {s : Supply}

/-- **The local handed out at place `k` has the `k`-th smallest free number.** -/
theorem Mints.eq_nth (h : (ofUsed used).Mints xs s) {k : Nat} {x : Local} (hx : xs[k]? = some x) :
    x.index.toNat = Nat.nth (Free used) k := by
  obtain ⟨hfree, hcount⟩ := h.count_eq (handedOut_ofUsed used) hx
  rw [Nat.zero_add] at hcount
  rw [← hcount, Nat.nth_count hfree]

theorem Mints.not_mem (h : (ofUsed used).Mints xs s) {x : Local} (hx : x ∈ xs) : x ∉ used :=
  (holds_ofUsed used).not_mem h hx

theorem Mints.increasing (h : (ofUsed used).Mints xs s) :
    xs.Pairwise fun x y => x.index < y.index := by
  rw [List.pairwise_iff_getElem]
  intro i j hi hj hij
  obtain ⟨hfree, hci⟩ := h.count_eq (handedOut_ofUsed used) (List.getElem?_eq_getElem hi)
  obtain ⟨-, hcj⟩ := h.count_eq (handedOut_ofUsed used) (List.getElem?_eq_getElem hj)
  have hlt : Nat.count (Free used) xs[i].index.toNat < Nat.count (Free used) xs[j].index.toNat := by
    omega
  exact UInt32.lt_iff_toNat_lt.2 (Nat.lt_of_count_lt_count hlt)

theorem Mints.nodup (h : (ofUsed used).Mints xs s) : xs.Nodup :=
  h.increasing.imp fun hlt he => by
    rw [he] at hlt
    exact UInt32.lt_irrefl _ hlt

end Supply

end SingleAssignment
