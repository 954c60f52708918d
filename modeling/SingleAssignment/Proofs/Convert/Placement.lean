import SingleAssignment.Proofs.Convert.Rendering
import SingleAssignment.Proofs.Flow.Exposure

/-!
# Where phis are placed

Emission places a phi at the first operand of a block that is an import and has several definitions.
Imports are known from the renamed block, and a table tells which of them have been resolved; the
program knows exposed reads instead.

* `ResolvesAll.positions` — the operands of one instruction that get a phi.
* `EmitsAll.resolved` — the table at a place of a block.
* `Naming.exposed_iff` — the imports of a renamed block are the exposed reads of the block.
* `Stream.placement` — **phis stand exactly where the program needs them.**
-/

namespace SingleAssignment

variable {τ : Type}

/-! ## Operands that get a phi -/

/-- The search finds at least two definitions. -/
def FlowGraph.FindsSeveral (g : FlowGraph τ) (n : Node) (x : Local) : Prop :=
  ∃ cs, g.reachingDefinitions n x = .ok cs ∧ 2 ≤ cs.length

section Block

variable {g : FlowGraph τ} {n : Node} {b : Block τ} {offset : Offset}

/-- Operand `j` is the first read of an import that is not in the table and has several
definitions. -/
def Places (g : FlowGraph τ) (n : Node) (b : Block τ) (m : LocalMap) (xs : List Local) (j : Nat) :
    Prop :=
  ∃ x, xs[j]? = some x ∧ b.imports x = true ∧ m[x]? = none ∧ (∀ j' < j, xs[j']? ≠ some x) ∧
    g.FindsSeveral n x

theorem places_zero {m : LocalMap} {x : Local} {xs : List Local} :
    Places g n b m (x :: xs) 0 ↔ b.imports x = true ∧ m[x]? = none ∧ g.FindsSeveral n x := by
  simp [Places]

/-- The first operand is in the table behind it, if it is an import. -/
theorem places_succ {m m' : LocalMap} {x : Local} {xs : List Local} {j : Nat}
    (hm : ∀ z, m'[z]? = none ↔ m[z]? = none ∧ ¬ (b.imports z = true ∧ z = x)) :
    Places g n b m (x :: xs) (j + 1) ↔ Places g n b m' xs j := by
  refine exists_congr fun z => ?_
  have hfirst : (∀ j' < j + 1, (x :: xs)[j']? ≠ some z) ↔
      z ≠ x ∧ ∀ j' < j, xs[j']? ≠ some z := by
    constructor
    · intro h
      refine ⟨fun he => h 0 (Nat.succ_pos j) (by rw [he]; rfl), fun j' hj' => ?_⟩
      exact h (j' + 1) (Nat.succ_lt_succ hj')
    · rintro ⟨hne, h⟩ j' hj'
      cases j' with
      | zero => exact fun he => hne (Option.some.inj he).symm
      | succ j' => exact h j' (Nat.lt_of_succ_lt_succ hj')
  rw [hfirst, hm, List.getElem?_cons_succ]
  constructor
  · rintro ⟨hz, himp, hnone, ⟨hne, hbefore⟩, hfinds⟩
    exact ⟨hz, himp, ⟨hnone, fun h => hne h.2⟩, hbefore, hfinds⟩
  · rintro ⟨hz, himp, ⟨hnone, hne⟩, hbefore, hfinds⟩
    exact ⟨hz, himp, hnone, ⟨fun he => hne ⟨himp, he⟩, hbefore⟩, hfinds⟩

theorem insert_eq_none_iff {m : LocalMap} {x y z : Local} :
    (m.insert x y)[z]? = none ↔ m[z]? = none ∧ z ≠ x := by
  rw [Std.TreeMap.getElem?_insert]
  split
  · rename_i he
    have := Std.LawfulEqOrd.eq_of_compare he
    simp [this]
  · rename_i hne
    have hzx : z ≠ x := fun he => hne (by rw [he, Std.ReflOrd.compare_self])
    simp [hzx]

/-- Behind an operand, the table holds it if it is an import. -/
theorem Resolves.eq_none_iff {m m' : LocalMap} {x y : Local} {φs : List Phi}
    (h : Resolves g n b offset m x φs y m') (z : Local) :
    m'[z]? = none ↔ m[z]? = none ∧ ¬ (b.imports z = true ∧ z = x) := by
  have hinsert : ∀ {w : Local}, b.imports x = true →
      ((m.insert x w)[z]? = none ↔ m[z]? = none ∧ ¬ (b.imports z = true ∧ z = x)) := by
    intro w hx
    rw [insert_eq_none_iff]
    refine and_congr_right fun _ => not_congr ⟨fun he => ⟨he ▸ hx, he⟩, And.right⟩
  cases h with
  | final hx =>
      refine ⟨fun hz => ⟨hz, ?_⟩, And.left⟩
      rintro ⟨himp, rfl⟩
      rw [hx] at himp
      cases himp
  | known hx hy =>
      refine ⟨fun hz => ⟨hz, ?_⟩, And.left⟩
      rintro ⟨-, rfl⟩
      rw [hy] at hz
      cases hz
  | unresolved hx _ _ => exact hinsert hx
  | single hx _ _ => exact hinsert hx
  | merged hx _ _ _ _ _ => exact hinsert hx

/-- One operand gets a phi or not. -/
theorem Resolves.placed {m m' : LocalMap} {x y : Local} {φs : List Phi}
    (h : Resolves g n b offset m x φs y m') (xs : List Local) :
    (φs = [] ∧ ¬ Places g n b m (x :: xs) 0) ∨
      ∃ φ, φs = [φ] ∧ φ.origin = x ∧ Places g n b m (x :: xs) 0 := by
  simp only [places_zero]
  cases h with
  | final hx => exact .inl ⟨rfl, fun h => by rw [hx] at h; cases h.1⟩
  | known _ hy => exact .inl ⟨rfl, fun h => by rw [hy] at h; cases h.2.1⟩
  | unresolved _ _ hcs =>
      refine .inl ⟨rfl, ?_⟩
      rintro ⟨-, -, cs, hcs', hlen⟩
      rw [hcs] at hcs'
      cases hcs'
      cases hlen
  | single _ _ hcs =>
      refine .inl ⟨rfl, ?_⟩
      rintro ⟨-, -, cs, hcs', hlen⟩
      rw [hcs] at hcs'
      cases hcs'
      simp at hlen
  | merged hx hm _ ho hcs hlen => exact .inr ⟨_, rfl, ho, hx, hm, _, hcs, hlen⟩

/-- **The operands that get a phi**, from left to right. -/
theorem ResolvesAll.positions {m m' : LocalMap} {xs ys : List Local} {φs : List Phi}
    (h : ResolvesAll g n b offset m xs φs ys m') :
    ∃ js : List Nat, js.Pairwise (· < ·) ∧ (∀ j, j ∈ js ↔ Places g n b m xs j) ∧
      List.Forall₂ (fun j φ => xs[j]? = some φ.origin) js φs := by
  induction h with
  | nil => exact ⟨[], .nil, by simp [Places], .nil⟩
  | @cons m₁ m₂ m₃ x y xs ys φs ψs hx _ ih =>
      obtain ⟨js, hsorted, hmem, hall⟩ := ih
      have hsucc : ∀ j, Places g n b m₁ (x :: xs) (j + 1) ↔ j ∈ js := fun j =>
        (places_succ hx.eq_none_iff).trans (hmem j).symm
      have hshift : (js.map (· + 1)).Pairwise (· < ·) :=
        List.pairwise_map.2 (hsorted.imp Nat.succ_lt_succ)
      have hall' : List.Forall₂ (fun j φ => (x :: xs)[j]? = some φ.origin) (js.map (· + 1)) ψs := by
        rw [List.forall₂_map_left_iff]
        exact hall
      rcases hx.placed xs with ⟨rfl, hno⟩ | ⟨φ, rfl, ho, hyes⟩
      · refine ⟨js.map (· + 1), hshift, fun j => ?_, hall'⟩
        cases j with
        | zero => simp [hno]
        | succ j => simp [hsucc]
      · refine ⟨0 :: js.map (· + 1), List.pairwise_cons.2 ⟨by simp, hshift⟩, fun j => ?_,
          .cons (by rw [ho]; rfl) hall'⟩
        cases j with
        | zero => simp [hyes]
        | succ j => simp [hsucc]

theorem ResolvesAll.eq_none_iff {m m' : LocalMap} {xs ys : List Local} {φs : List Phi}
    (h : ResolvesAll g n b offset m xs φs ys m') (z : Local) :
    m'[z]? = none ↔ m[z]? = none ∧ ¬ (b.imports z = true ∧ z ∈ xs) := by
  induction h with
  | nil => simp
  | cons hx _ ih =>
      rw [ih, hx.eq_none_iff]
      simp only [List.mem_cons, and_assoc, and_or_left, not_or]

/-- The table at a place holds the imports read above it. -/
theorem EmitsAll.resolved {m : LocalMap} {is : List (Instruction τ)} {es : List (Emission τ)}
    (h : EmitsAll g n b m is es) {l : Nat} {i : Instruction τ} {e : Emission τ}
    (hi : is[l]? = some i) (he : es[l]? = some e) :
    ∃ ml m', ResolvesAll g n b i.offset ml i.operands e.phis e.instruction.operands m' ∧
      ∀ z, ml[z]? = none ↔ m[z]? = none ∧
        ¬ (b.imports z = true ∧ ∃ l' < l, ∃ i', is[l']? = some i' ∧ z ∈ i'.operands) := by
  induction h generalizing l with
  | nil => cases hi
  | @cons m₁ m₂ j js φs ys es hops _ ih =>
      cases l with
      | zero =>
          cases hi
          cases he
          exact ⟨m₁, m₂, hops, by simp⟩
      | succ l =>
          obtain ⟨ml, m', hres, hnone⟩ := ih hi he
          refine ⟨ml, m', hres, fun z => ?_⟩
          have hsplit : (∃ l' < l + 1, ∃ i', (j :: js)[l']? = some i' ∧ z ∈ i'.operands) ↔
              z ∈ j.operands ∨ ∃ l' < l, ∃ i', js[l']? = some i' ∧ z ∈ i'.operands := by
            constructor
            · rintro ⟨l', hl', i', hi', hz⟩
              cases l' with
              | zero =>
                  cases hi'
                  exact .inl hz
              | succ l' => exact .inr ⟨l', Nat.lt_of_succ_lt_succ hl', i', hi', hz⟩
            · rintro (hz | ⟨l', hl', i', hi', hz⟩)
              · exact ⟨0, Nat.succ_pos l, j, rfl, hz⟩
              · exact ⟨l' + 1, Nat.succ_lt_succ hl', i', hi', hz⟩
          rw [hnone, hops.eq_none_iff, hsplit, and_or_left, not_or, and_assoc]

end Block

/-! ## Imports are exposed reads -/

namespace Naming

variable {p : Program τ} {g g' : FlowGraph τ} {ds : List (Local × Local)} {n : Node}
  {b b' : Block τ} {start l j : Nat} {x : Local}

/-- **The imports of a renamed block** are the exposed reads of the block it comes from. -/
theorem exposed_iff (h : Naming p g g' ds) (hp : Placed g.blocksInOrder n b start)
    (hp' : Placed g'.blocksInOrder n b' start) (hb : b.RenamedTo b') :
    b.Exposed x l j ↔
      (∃ r, b'.instructions[l]? = some r ∧ r.operands[j]? = some x) ∧ b'.imports x = true := by
  constructor
  · rintro ⟨⟨i, hi, hx⟩, hno⟩
    have hl : l < b'.instructions.size := by
      rw [hb.size]
      exact (Array.getElem?_eq_some_iff.1 hi).1
    have hr := Array.getElem?_eq_getElem hl
    obtain ⟨hxr, himports⟩ := hb.outside hi hr hx hno
    exact ⟨⟨_, hr, hxr⟩, himports⟩
  · rintro ⟨⟨r, hr, hx⟩, himports⟩
    have hl : l < b.instructions.size := by
      rw [← hb.size]
      exact (Array.getElem?_eq_some_iff.1 hr).1
    have hi := Array.getElem?_eq_getElem hl
    have hj : j < b.instructions[l].operands.length := by
      rw [← (hb.kept hi hr).2.2.1]
      exact (List.getElem?_eq_some_iff.1 hx).1
    have hy := List.getElem?_eq_getElem hj
    rcases hb.operand_cases hi hr hy with ⟨l', -, -, -, z, hz, hassigns⟩ | ⟨hno, hyr, -⟩
    · rw [hx] at hz
      cases hz
      rw [h.imports_eq_false hp hp' hb hassigns] at himports
      cases himports
    · rw [hx] at hyr
      rw [← Option.some.inj hyr] at hno hy
      exact ⟨⟨_, hi, hy⟩, hno⟩

/-- The search has an answer at every node. -/
theorem exists_reachingDefinitions (h : Naming p g g' ds) (n : Node) (x : Local) :
    ∃ cs, g'.reachingDefinitions n x = .ok cs := by
  refine FlowGraph.exists_reachingDefinitions (fun n m hm => ?_) n x
  obtain ⟨b, hb⟩ := h.renamed.exists_predecessor h.laid hm
  exact lt_of_node? hb

/-- At an exposed read, the search finds several definitions iff several reach. -/
theorem findsSeveral_iff (h : Naming p g g' ds) (hp : Placed g.blocksInOrder n b start)
    (hx : b.Exposed x l j) : g'.FindsSeveral n x ↔ p.Merges x (start + l) := by
  obtain ⟨cs, hcs⟩ := h.exists_reachingDefinitions n x
  obtain ⟨positions, hnodup, hmem, hall⟩ := h.renamed.contributors h.laid hp hx.lt hx.2 hcs
  have hlen : 2 ≤ cs.length ↔ p.Merges x (start + l) := by
    rw [← hall.length_eq, ← List.toFinset_card_of_nodup hnodup, Nat.succ_le_iff,
      Finset.one_lt_card]
    simp only [List.mem_toFinset, hmem]
    constructor
    · rintro ⟨d, hd, d', hd', hne⟩
      exact ⟨d, d', hne, hd, hd'⟩
    · rintro ⟨d, d', hne, hd, hd'⟩
      exact ⟨d, hd, d', hd', hne⟩
  rw [← hlen, FlowGraph.FindsSeveral, hcs]
  simp

/-- The operands of a block that get a phi are the reads that need one. -/
theorem places_iff (h : Naming p g g' ds) (hp : Placed g.blocksInOrder n b start)
    (hp' : Placed g'.blocksInOrder n b' start) (hb : b.RenamedTo b') {r : Instruction τ}
    (hr : b'.instructions[l]? = some r) {m : LocalMap}
    (hm : ∀ z, m[z]? = none ↔ ¬ (b'.imports z = true ∧
      ∃ l' < l, ∃ r', b'.instructions[l']? = some r' ∧ z ∈ r'.operands)) :
    Places g' n b' m r.operands j ↔ ∃ x, p.PhiAt x (start + l) j := by
  have hl : l < b.instructions.size := by
    rw [← hb.size]
    exact (Array.getElem?_eq_some_iff.1 hr).1
  refine exists_congr fun x => ?_
  rw [h.laid.phiAt_iff hp hl]
  constructor
  · rintro ⟨hx, himports, hnone, hfirst, hfinds⟩
    have hexposed := (h.exposed_iff hp hp' hb).2 ⟨⟨r, hr, hx⟩, himports⟩
    refine ⟨(h.findsSeveral_iff hp hexposed).1 hfinds, hexposed, ?_⟩
    rintro l' j' hbefore hearlier
    obtain ⟨⟨r', hr', hx'⟩, -⟩ := (h.exposed_iff hp hp' hb).1 hearlier
    rcases hbefore with hlt | ⟨rfl, hlt⟩
    · exact (hm x).1 hnone ⟨himports, l', hlt, r', hr', List.mem_of_getElem? hx'⟩
    · rw [hr] at hr'
      cases hr'
      exact hfirst j' hlt hx'
  · rintro ⟨hmerges, hexposed, hfirst⟩
    obtain ⟨⟨r', hr', hx⟩, himports⟩ := (h.exposed_iff hp hp' hb).1 hexposed
    rw [hr] at hr'
    cases hr'
    refine ⟨hx, himports, (hm x).2 ?_, fun j' hlt hx' => ?_,
      (h.findsSeveral_iff hp hexposed).2 hmerges⟩
    · rintro ⟨-, l', hlt, r', hr', hmem⟩
      obtain ⟨j', hx'⟩ := List.mem_iff_getElem?.1 hmem
      exact hfirst l' j' (.inl hlt) ((h.exposed_iff hp hp' hb).2 ⟨⟨r', hr', hx'⟩, himports⟩)
    · exact hfirst l j' (.inr ⟨rfl, hlt⟩) ((h.exposed_iff hp hp' hb).2 ⟨⟨r, hr, hx'⟩, himports⟩)

end Naming

/-! ## Phis of a stream -/

/-- Phis stand at the operands that need them, from left to right, and merge values of different
blocks. -/
structure Placement (p : Program τ) (es : List (Emission τ)) : Prop where
  positions : ∀ {k : Nat} {i : Instruction τ} {e : Emission τ}, p.at? k = some i →
    es[k]? = some e → ∃ js : List Nat, js.Pairwise (· < ·) ∧
      (∀ j, j ∈ js ↔ ∃ x, p.PhiAt x k j) ∧
      List.Forall₂ (fun j φ => i.operands[j]? = some φ.origin) js e.phis
  predecessors : ∀ {k : Nat} {e : Emission τ} {φ : Phi}, es[k]? = some e → φ ∈ e.phis →
    (φ.contributors.map (·.predecessor)).Nodup

/-- **Phis stand exactly where the program needs them.** -/
theorem Stream.placement {p : Program τ} {g g' : FlowGraph τ} {ds : List (Local × Local)}
    {parts : List (List (Emission τ))} {events : List (Event τ)}
    (h : Stream p g g' ds parts events) : Placement p parts.flatten := by
  constructor
  · intro k i e hi he
    obtain ⟨n, b, b', start, part, l, r, hs, rfl, hi, hr, he⟩ := h.exists_site_at hi he
    obtain ⟨m, m', hres, hm⟩ := hs.emits.resolved (by rw [Array.getElem?_toList]; exact hr) he
    obtain ⟨js, hsorted, hmem, hall⟩ := hres.positions
    refine ⟨js, hsorted, fun j => ?_, ?_⟩
    · rw [hmem]
      refine h.places_iff hs.placed hs.placed' hs.renamed hr fun z => ?_
      simp [hm z]
    · refine ((List.forall₂_and_left _ _).2 ⟨fun j hj => (hmem j).1 hj, hall⟩).imp ?_
      rintro j φ ⟨⟨x, hx, himports, -⟩, hφ⟩
      rw [hx] at hφ
      rw [← hφ]
      obtain ⟨⟨i', hi', hx'⟩, -⟩ :=
        (h.exposed_iff hs.placed hs.placed' hs.renamed).2 ⟨⟨r, hr, hx⟩, himports⟩
      rw [hi] at hi'
      cases hi'
      exact hx'
  · intro k e φ he hφ
    have hk : k < p.size := by
      rw [← h.rendering.length]
      exact (List.getElem?_eq_some_iff.1 he).1
    obtain ⟨n, b, b', start, part, l, r, hs, rfl, hi, hr, he⟩ :=
      h.exists_site_at (Array.getElem?_eq_getElem hk) he
    exact h.renamed.nodup_predecessors h.laid ((hs.emittedFrom hr he).phis φ hφ).2.2.2.1

end SingleAssignment
