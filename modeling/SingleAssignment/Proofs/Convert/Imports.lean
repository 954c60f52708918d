import SingleAssignment.Proofs.Convert.Placement
import SingleAssignment.Proofs.Flow.Counts

/-!
# Imports met for the first time

Emission attends to an import at its first read in a block and looks it up from then on.  Whatever
it does for the imports of some sort, it therefore does once for each block and each local.  Such
imports are counted along the reads of a block, over the blocks of a flow graph, and as sites of the
program: pairs of the position where a block starts and a local.

* `Block.NewImports` — the imports of a sort among some reads, apart from those met before.
* `FlowGraph.importSites` — blocks and their imports of a sort.
* `Naming.ncard_importSites` — **imports of a flow graph are counted as sites of the program.**
* `Naming.ncard_mergingSites`, `Naming.ncard_unsuppliedSites` — the two sorts that emission tells
  from the others.
-/

namespace SingleAssignment

variable {τ : Type}

/-! ## Along the reads of a block -/

/-- The imports of a block that are among the reads `xs`, but not among the earlier reads `done`,
and have the property `P`. -/
def Block.NewImports (b : Block τ) (P : Local → Prop) (done xs : List Local) : Set Local :=
  {z | z ∈ xs ∧ z ∉ done ∧ b.imports z = true ∧ P z}

namespace Block

variable {b : Block τ} {P : Local → Prop} {done xs : List Local} {x : Local}

theorem finite_newImports : (b.NewImports P done xs).Finite :=
  xs.finite_toSet.subset fun _ h => h.1

@[simp] theorem ncard_newImports_nil : (b.NewImports P done []).ncard = 0 := by
  simp [NewImports]

theorem ncard_newImports_append (done xs ys : List Local) :
    (b.NewImports P done (xs ++ ys)).ncard =
      (b.NewImports P done xs).ncard + (b.NewImports P (done ++ xs) ys).ncard := by
  have hdisjoint : Disjoint (b.NewImports P done xs) (b.NewImports P (done ++ xs) ys) :=
    Set.disjoint_left.2 fun z hz hz' => hz'.2.1 (List.mem_append_right done hz.1)
  rw [← Set.ncard_union_eq hdisjoint finite_newImports finite_newImports]
  congr 1
  ext z
  simp only [NewImports, Set.mem_union, Set.mem_ofPred_eq, List.mem_append]
  tauto

theorem ncard_newImports_eq_one (hdone : x ∉ done) (himports : b.imports x = true) (hx : P x) :
    (b.NewImports P done [x]).ncard = 1 := by
  rw [Set.ncard_eq_one]
  refine ⟨x, Set.ext fun z => ⟨fun hz => List.mem_singleton.1 hz.1, ?_⟩⟩
  rintro rfl
  exact ⟨List.mem_singleton.2 rfl, hdone, himports, hx⟩

theorem ncard_newImports_eq_zero (h : ¬ (x ∉ done ∧ b.imports x = true ∧ P x)) :
    (b.NewImports P done [x]).ncard = 0 := by
  rw [Set.ncard_eq_zero finite_newImports]
  refine Set.eq_empty_of_forall_notMem fun z hz => h ?_
  obtain rfl := List.mem_singleton.1 hz.1
  exact hz.2

end Block

/-- The table holds the imports among `done`. -/
def TableOf (b : Block τ) (done : List Local) (m : LocalMap) : Prop :=
  ∀ z, m[z]? = none ↔ ¬ (b.imports z = true ∧ z ∈ done)

section Table

variable {g : FlowGraph τ} {n : Node} {b : Block τ} {offset : Offset} {done : List Local}
  {m m' : LocalMap}

theorem tableOf_empty : TableOf b [] ∅ := fun z => by simp

theorem TableOf.mem_done {x y : Local} (hm : TableOf b done m) (hx : m[x]? = some y) :
    x ∈ done := by
  by_contra hno
  rw [(hm x).2 fun h => hno h.2] at hx
  cases hx

theorem TableOf.not_mem_done {x : Local} (hm : TableOf b done m) (himports : b.imports x = true)
    (hx : m[x]? = none) : x ∉ done :=
  fun h => (hm x).1 hx ⟨himports, h⟩

theorem TableOf.resolvesAll {xs ys : List Local} {φs : List Phi} (hm : TableOf b done m)
    (h : ResolvesAll g n b offset m xs φs ys m') : TableOf b (done ++ xs) m' := by
  intro z
  rw [h.eq_none_iff z, hm z, List.mem_append, and_or_left, not_or]

theorem TableOf.resolves {x y : Local} {φs : List Phi} (hm : TableOf b done m)
    (h : Resolves g n b offset m x φs y m') : TableOf b (done ++ [x]) m' :=
  hm.resolvesAll (.cons h .nil)

end Table

/-! ## Over the blocks of a flow graph -/

namespace FlowGraph

variable {g : FlowGraph τ} {P : Node → Local → Prop}

/-- The imports of the block of a node that have the property `P` there. -/
def ImportsAt (g : FlowGraph τ) (P : Node → Local → Prop) (n : Node) : Set Local :=
  {z | ∃ b, g.block? n = some b ∧
    z ∈ b.NewImports (P n) [] (b.instructions.toList.flatMap (·.operands))}

theorem importsAt_eq {n : Node} {b : Block τ} (hb : g.block? n = some b) :
    g.ImportsAt P n = b.NewImports (P n) [] (b.instructions.toList.flatMap (·.operands)) := by
  unfold ImportsAt
  simp only [hb, Option.some.injEq, exists_eq_left']
  rfl

theorem finite_importsAt (g : FlowGraph τ) (P : Node → Local → Prop) (n : Node) :
    (g.ImportsAt P n).Finite := by
  cases hb : g.block? n with
  | none => simp [ImportsAt, hb]
  | some b =>
      rw [importsAt_eq hb]
      exact Block.finite_newImports

/-- The listed nodes and the imports of their blocks that have the property `P` there. -/
def importSites (g : FlowGraph τ) (P : Node → Local → Prop) (ns : List Node) :
    Set (Node × Local) :=
  {q | q.1 ∈ ns ∧ q.2 ∈ g.ImportsAt P q.1}

theorem finite_importSites (g : FlowGraph τ) (P : Node → Local → Prop) (ns : List Node) :
    (g.importSites P ns).Finite := by
  refine (Set.Finite.biUnion ns.finite_toSet fun n _ =>
    (g.finite_importsAt P n).image (Prod.mk n)).subset ?_
  rintro ⟨n, x⟩ ⟨hn, hx⟩
  exact Set.mem_biUnion hn ⟨x, hx, rfl⟩

@[simp] theorem ncard_importSites_nil : (g.importSites P []).ncard = 0 := by
  simp [importSites]

theorem ncard_importSites_cons {n : Node} {ns : List Node} (hn : n ∉ ns) :
    (g.importSites P (n :: ns)).ncard = (g.ImportsAt P n).ncard + (g.importSites P ns).ncard := by
  have hsplit : g.importSites P (n :: ns) = Prod.mk n '' g.ImportsAt P n ∪ g.importSites P ns := by
    ext ⟨m, x⟩
    constructor
    · rintro ⟨hm, hx⟩
      rcases List.mem_cons.1 hm with rfl | hm
      · exact .inl ⟨x, hx, rfl⟩
      · exact .inr ⟨hm, hx⟩
    · rintro (⟨y, hy, he⟩ | ⟨hm, hx⟩)
      · cases he
        exact ⟨List.mem_cons_self, hy⟩
      · exact ⟨List.mem_cons_of_mem n hm, hx⟩
  have hdisjoint : Disjoint (Prod.mk n '' g.ImportsAt P n) (g.importSites P ns) := by
    refine Set.disjoint_left.2 ?_
    rintro _ ⟨y, -, rfl⟩ ⟨hm, -⟩
    exact hn hm
  rw [hsplit, Set.ncard_union_eq hdisjoint ((g.finite_importsAt P n).image _)
    (g.finite_importSites P ns), Set.ncard_image_of_injective _ (Prod.mk_right_injective n)]

end FlowGraph

/-! ## As sites of the program -/

/-- The search finds no definition. -/
def FlowGraph.FindsNone (g : FlowGraph τ) (n : Node) (x : Local) : Prop :=
  g.reachingDefinitions n x = .ok []

namespace Program

/-- The blocks, known by the position of their first instruction, and the locals that need a phi
there: the block reads the local before it assigns it, and several definitions reach the read. -/
def phiSites (p : Program τ) : Set (Nat × Local) :=
  {q | ∃ k j, p.Exposed q.1 q.2 k j ∧ p.Merges q.2 k}

/-- The blocks, known by the position of their first instruction, and the locals that are read there
without a definition: the block reads the local before it assigns it, and no definition reaches the
start of the block. -/
def unsuppliedSites (p : Program τ) : Set (Nat × Local) :=
  {q | (∃ k j, p.Exposed q.1 q.2 k j) ∧ ∀ d, ¬ p.ReachingDefinition q.2 d q.1}

/-- A program has finitely many blocks and reads. -/
theorem finite_exposed (p : Program τ) :
    {q : Nat × Local | ∃ k j, p.Exposed q.1 q.2 k j}.Finite := by
  refine ((Set.finite_Iio p.size).prod
    (List.finite_toSet (p.instructions.toList.flatMap (·.operands)))).subset ?_
  rintro ⟨s, x⟩ ⟨k, j, hk, ⟨i, hi, hx⟩, -⟩
  refine ⟨Nat.lt_of_le_of_lt hk.le hk.lt_size, List.mem_flatMap.2 ⟨i, ?_, ?_⟩⟩
  · exact Array.mem_toList_iff.2 (Array.mem_of_getElem? hi)
  · exact List.mem_of_getElem? hx

theorem finite_phiSites (p : Program τ) : p.phiSites.Finite := by
  refine p.finite_exposed.subset ?_
  rintro q ⟨k, j, hq, -⟩
  exact ⟨k, j, hq⟩

theorem finite_unsuppliedSites (p : Program τ) : p.unsuppliedSites.Finite :=
  p.finite_exposed.subset fun _ hq => hq.1

end Program

namespace Naming

variable {p : Program τ} {g g' : FlowGraph τ} {ds : List (Local × Local)} {n : Node}
  {b : Block τ} {start : Nat} {x : Local} {P : Node → Local → Prop}

/-- The imports of a renamed block are the locals with an exposed read. -/
theorem mem_importsAt_iff (h : Naming p g g' ds) (hp : Placed g.blocksInOrder n b start) :
    x ∈ g'.ImportsAt P n ↔ (∃ l j, b.Exposed x l j) ∧ P n x := by
  obtain ⟨b', hp', hb⟩ := h.renamed.placed hp
  rw [FlowGraph.importsAt_eq (FlowGraph.block?_of_mem hp'.mem)]
  constructor
  · rintro ⟨hx, -, himports, hP⟩
    obtain ⟨r, hr, hx⟩ := List.mem_flatMap.1 hx
    obtain ⟨l, hr⟩ := List.mem_iff_getElem?.1 hr
    obtain ⟨j, hx⟩ := List.mem_iff_getElem?.1 hx
    rw [Array.getElem?_toList] at hr
    exact ⟨⟨l, j, (h.exposed_iff hp hp' hb).2 ⟨⟨r, hr, hx⟩, himports⟩⟩, hP⟩
  · rintro ⟨⟨l, j, hexposed⟩, hP⟩
    obtain ⟨⟨r, hr, hx⟩, himports⟩ := (h.exposed_iff hp hp' hb).1 hexposed
    refine ⟨List.mem_flatMap.2 ⟨r, ?_, List.mem_of_getElem? hx⟩, List.not_mem_nil, himports, hP⟩
    exact Array.mem_toList_iff.2 (Array.mem_of_getElem? hr)

/-- **Imports of a flow graph are counted as sites of the program.** -/
theorem ncard_importSites (h : Naming p g g' ds) {sites : Set (Nat × Local)}
    (hread : ∀ q ∈ sites, ∃ k j, p.Exposed q.1 q.2 k j)
    (hsites : ∀ {n b start x}, Placed g.blocksInOrder n b start →
      (x ∈ g'.ImportsAt P n ↔ (start, x) ∈ sites)) :
    (g'.importSites P g'.order.toList).ncard = sites.ncard := by
  rw [h.renamed.order]
  obtain ⟨start, hstart, hstarts⟩ := h.laid.exists_starts
  refine Set.ncard_congr (fun q _ => (start q.1, q.2)) ?_ ?_ ?_
  · rintro ⟨n, x⟩ ⟨hn, hx⟩
    obtain ⟨b, hp⟩ := hstart n hn
    exact (hsites hp).1 hx
  · rintro ⟨n, x⟩ ⟨m, y⟩ ⟨hn, -⟩ ⟨hm, -⟩ heq
    obtain ⟨hs, hx⟩ := Prod.mk.inj heq
    exact Prod.ext (hstarts.injOn hn hm hs) hx
  · rintro ⟨s, x⟩ hq
    obtain ⟨k, j, hexposed⟩ := hread _ hq
    obtain ⟨n, hn, rfl⟩ := hstarts.surjOn hexposed.inBlock.leads
    obtain ⟨b, hp⟩ := hstart n hn
    exact ⟨(n, x), ⟨hn, (hsites hp).2 hq⟩, rfl⟩

/-- **The imports with several definitions are the phi sites of the program.** -/
theorem ncard_mergingSites (h : Naming p g g' ds) :
    (g'.importSites g'.FindsSeveral g'.order.toList).ncard = p.phiSites.ncard := by
  refine h.ncard_importSites (fun q hq => ?_) fun hp => ?_
  · obtain ⟨k, j, hexposed, -⟩ := hq
    exact ⟨k, j, hexposed⟩
  · rw [h.mem_importsAt_iff hp]
    constructor
    · rintro ⟨⟨l, j, hexposed⟩, hfinds⟩
      exact ⟨_, j, (h.laid.exposed_iff hp).2 ⟨l, rfl, hexposed⟩,
        (h.findsSeveral_iff hp hexposed).1 hfinds⟩
    · rintro ⟨k, j, hread, hmerges⟩
      obtain ⟨l, rfl, hexposed⟩ := (h.laid.exposed_iff hp).1 hread
      exact ⟨⟨l, j, hexposed⟩, (h.findsSeveral_iff hp hexposed).2 hmerges⟩

/-- At a block, the search finds the definitions that reach its start. -/
theorem contributors_start (h : Naming p g g' ds) (hp : Placed g.blocksInOrder n b start)
    {cs : List Contributor} (hcs : g'.reachingDefinitions n x = .ok cs) :
    ∃ ps : List Nat, (∀ d, d ∈ ps ↔ p.ReachingDefinition x d start) ∧
      ps.map (destinationAt (allInstructions g'.blocksInOrder)) = cs.map fun c => some c.value := by
  obtain ⟨ps, -, hmem, hall⟩ := h.renamed.contributors h.laid hp (h.laid.size_pos hp)
    (fun q hq => absurd hq (Nat.not_lt_zero q)) hcs
  refine ⟨ps, hmem, ?_⟩
  rw [← List.forall₂_eq_eq_eq, List.forall₂_map_left_iff, List.forall₂_map_right_iff]
  exact hall.imp fun _ _ hc => hc.1

theorem findsNone_iff (h : Naming p g g' ds) (hp : Placed g.blocksInOrder n b start) :
    g'.FindsNone n x ↔ ∀ d, ¬ p.ReachingDefinition x d start := by
  obtain ⟨cs, hcs⟩ := h.exists_reachingDefinitions n x
  obtain ⟨ps, hmem, hnames⟩ := h.contributors_start hp hcs
  have hempty : cs = [] ↔ ps = [] := by
    rw [← List.map_eq_nil_iff, ← hnames, List.map_eq_nil_iff]
  rw [FlowGraph.FindsNone, hcs, Except.ok.injEq, hempty, List.eq_nil_iff_forall_not_mem]
  exact forall_congr' fun d => not_congr (hmem d)

/-- **The imports without a definition are the sites that no definition reaches.** -/
theorem ncard_unsuppliedSites (h : Naming p g g' ds) :
    (g'.importSites g'.FindsNone g'.order.toList).ncard = p.unsuppliedSites.ncard := by
  refine h.ncard_importSites (fun q hq => hq.1) fun hp => ?_
  rw [h.mem_importsAt_iff hp, h.findsNone_iff hp]
  refine and_congr_left fun _ => ?_
  constructor
  · rintro ⟨l, j, hexposed⟩
    exact ⟨_, j, (h.laid.exposed_iff hp).2 ⟨l, rfl, hexposed⟩⟩
  · rintro ⟨k, j, hread⟩
    obtain ⟨l, -, hexposed⟩ := (h.laid.exposed_iff hp).1 hread
    exact ⟨l, j, hexposed⟩

/-- The search finds new names only. -/
theorem contributor_unmentioned (h : Naming p g g' ds) (hp : Placed g.blocksInOrder n b start)
    {cs : List Contributor} (hcs : g'.reachingDefinitions n x = .ok cs) {c : Contributor}
    (hc : c ∈ cs) : c.value ∉ p.locals := by
  obtain ⟨ps, -, hnames⟩ := h.contributors_start hp hcs
  have hvalue : some c.value ∈ cs.map fun c => some c.value := List.mem_map.2 ⟨c, hc, rfl⟩
  rw [← hnames] at hvalue
  obtain ⟨d, -, hd⟩ := List.mem_map.1 hvalue
  refine h.unmentioned _ ?_
  rw [h.names]
  exact mem_destinations hd

end Naming

end SingleAssignment
