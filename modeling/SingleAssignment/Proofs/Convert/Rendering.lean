import SingleAssignment.Proofs.Convert.Stream
import SingleAssignment.Proofs.Flow.Contributors

/-!
# Emissions by position

A successful conversion emits one instruction for each position of the program.  This module says
what stands at each position in terms of reaching definitions; blocks and the order in which they
are renamed no longer appear, apart from the offsets that phis quote.

* `MergedAt` — contributors that name exactly the definitions reaching a position.
* `ReadAt` — what a read at a position becomes.
* `Rendering` — both, for every operand and every phi of every emission.
* `Stream.rendering` — **the emissions of a successful conversion render its program.**
-/

namespace SingleAssignment

variable {τ : Type}

/-- The instructions of a list of emissions. -/
def emittedInstructions (es : List (Emission τ)) : List (Instruction τ) := es.map (·.instruction)

theorem mem_phis {es : List (Emission τ)} {k : Nat} {e : Emission τ} {φ : Phi}
    (he : es[k]? = some e) (hφ : φ ∈ e.phis) : φ ∈ es.flatMap Emission.phis :=
  List.mem_flatMap.2 ⟨e, List.mem_of_getElem? he, hφ⟩

/-- The contributors name the definitions of `x` that reach position `k`, each once and with the
offset of its block. -/
def MergedAt (p : Program τ) (g : FlowGraph τ) (es : List (Emission τ)) (k : Nat) (x : Local)
    (cs : List Contributor) : Prop :=
  ∃ ds : List Nat, ds.Nodup ∧ (∀ d, d ∈ ds ↔ p.ReachingDefinition x d k) ∧
    List.Forall₂ (fun d c => destinationAt (emittedInstructions es) d = some c.value ∧
      g.StartsAt d c.predecessor) ds cs

theorem MergedAt.names {p : Program τ} {g : FlowGraph τ} {es : List (Emission τ)} {k : Nat}
    {x : Local} {cs : List Contributor} (h : MergedAt p g es k x cs) :
    ∃ ds : List Nat, ds.Nodup ∧ (∀ d, d ∈ ds ↔ p.ReachingDefinition x d k) ∧
      ds.map (destinationAt (emittedInstructions es)) = cs.map fun c => some c.value := by
  obtain ⟨ds, hnodup, hmem, hall⟩ := h
  refine ⟨ds, hnodup, hmem, ?_⟩
  rw [← List.forall₂_eq_eq_eq, List.forall₂_map_left_iff, List.forall₂_map_right_iff]
  exact hall.imp fun d c hdc => hdc.1

/-- A merge has two different definitions to merge. -/
theorem MergedAt.two_definitions {p : Program τ} {g : FlowGraph τ} {es : List (Emission τ)}
    {k : Nat} {x : Local} {cs : List Contributor} (h : MergedAt p g es k x cs)
    (hlen : 2 ≤ cs.length) :
    ∃ d d', d ≠ d' ∧ p.ReachingDefinition x d k ∧ p.ReachingDefinition x d' k := by
  obtain ⟨ds, hnodup, hmem, hall⟩ := h
  rw [← hall.length_eq] at hlen
  match ds, hlen with
  | d :: d' :: rest, _ =>
      refine ⟨d, d', ?_, (hmem d).1 (by simp), (hmem d').1 (by simp)⟩
      rintro rfl
      simp at hnodup

/-- From position `w` up to position `k`, control arrives only from the position before and `x` is
not assigned. -/
def Straight (p : Program τ) (x : Local) (w k : Nat) : Prop :=
  ∀ q, w ≤ q → q < k → ¬ p.Assigns x q ∧ ∀ j, p.CanFollow j (q + 1) → j = q

/-- What a read of `x` at position `k` becomes. -/
inductive ReadAt (p : Program τ) (g : FlowGraph τ) (es : List (Emission τ)) (k : Nat) (x : Local) :
    Local → Prop where
  | unresolved : (∀ d, ¬ p.ReachingDefinition x d k) → ReadAt p g es k x x
  | single {d : Nat} {y : Local} : (∀ d', p.ReachingDefinition x d' k ↔ d' = d) →
      destinationAt (emittedInstructions es) d = some y → ReadAt p g es k x y
  | merged {w : Nat} {e : Emission τ} {φ : Phi} : w ≤ k → es[w]? = some e → φ ∈ e.phis →
      φ.origin = x → MergedAt p g es k x φ.contributors → 2 ≤ φ.contributors.length →
      Straight p x w k → ReadAt p g es k x φ.result

/-- The emissions stand for the program, position by position. -/
structure Rendering (p : Program τ) (g : FlowGraph τ) (es : List (Emission τ)) : Prop where
  length : es.length = p.size
  kept : ∀ {k : Nat} {i : Instruction τ} {e : Emission τ}, p.at? k = some i → es[k]? = some e →
    e.instruction.offset = i.offset ∧ e.instruction.tag = i.tag ∧
      i.action.SameUpToDestination e.instruction.action
  operands : ∀ {k : Nat} {i : Instruction τ} {e : Emission τ}, p.at? k = some i →
    es[k]? = some e → List.Forall₂ (ReadAt p g es k) i.operands e.instruction.operands
  phis : ∀ {k : Nat} {e : Emission τ} {φ : Phi}, es[k]? = some e → φ ∈ e.phis →
    ∃ i, p.at? k = some i ∧ φ.offset = i.offset ∧ φ.origin ∈ i.operands ∧
      MergedAt p g es k φ.origin φ.contributors ∧ 2 ≤ φ.contributors.length

/-- Instructions and emitted instructions side by side. -/
theorem Rendering.aligned {p : Program τ} {g : FlowGraph τ} {es : List (Emission τ)}
    (h : Rendering p g es) :
    List.Forall₂ (fun i u => u.offset = i.offset ∧ u.tag = i.tag ∧
      i.action.SameUpToDestination u.action) p.instructions.toList (emittedInstructions es) := by
  rw [List.forall₂_iff_get]
  have hlen : p.instructions.toList.length = (emittedInstructions es).length := by
    rw [emittedInstructions, List.length_map, h.length, Array.length_toList]
    rfl
  refine ⟨hlen, fun k hk hk' => ?_⟩
  rw [emittedInstructions, List.length_map] at hk'
  have hi : p.at? k = some (p.instructions.toList.get ⟨k, hk⟩) := by
    rw [Program.at?, ← Array.getElem?_toList]
    exact List.getElem?_eq_getElem hk
  simpa [emittedInstructions] using h.kept hi (List.getElem?_eq_getElem hk')

/-- Emitted instructions assign where the instructions of the program do. -/
theorem Rendering.assigning {p : Program τ} {g : FlowGraph τ} {es : List (Emission τ)}
    (h : Rendering p g es) :
    List.Forall₂ (fun i u => u.destination?.isSome = i.destination?.isSome) p.instructions.toList
      (emittedInstructions es) :=
  h.aligned.imp fun _ _ hiu => hiu.2.2.isSome_destination?

theorem Rendering.offsets {p : Program τ} {g : FlowGraph τ} {es : List (Emission τ)}
    (h : Rendering p g es) :
    (emittedInstructions es).map (·.offset) = p.instructions.toList.map (·.offset) := by
  symm
  rw [← List.forall₂_eq_eq_eq, List.forall₂_map_left_iff, List.forall₂_map_right_iff]
  exact h.aligned.imp fun _ _ hiu => hiu.1.symm

theorem destinationAt_emission {es : List (Emission τ)} {k : Nat} {e : Emission τ}
    (he : es[k]? = some e) :
    destinationAt (emittedInstructions es) k = e.instruction.destination? := by
  rw [destinationAt, emittedInstructions, List.getElem?_map, he, Option.map_some, Option.bind_some]

/-! ## Blocks and their parts of the emissions -/

/-- Each block has its part of the emissions. -/
def Parted (g : FlowGraph τ) (blocks : List (Node × Block τ)) (parts : List (List (Emission τ))) :
    Prop :=
  List.Forall₂ (fun q es => EmitsAll g q.1 q.2 ∅ q.2.instructions.toList es) blocks parts

theorem Parted.placed {g : FlowGraph τ} {blocks : List (Node × Block τ)}
    {parts : List (List (Emission τ))} {n : Node} {b : Block τ} {start : Nat}
    (h : Parted g blocks parts) (hp : Placed blocks n b start) :
    ∃ part, EmitsAll g n b ∅ b.instructions.toList part ∧
      ∀ l < b.instructions.size, parts.flatten[start + l]? = part[l]? := by
  obtain ⟨front, back, rfl, rfl⟩ := hp
  induction front generalizing parts with
  | nil =>
      obtain ⟨part, rest, hpart, -, rfl⟩ := List.forall₂_cons_left_iff.1 h
      refine ⟨part, hpart, fun l hl => ?_⟩
      rw [List.flatten_cons, List.getElem?_append_left]
      · simp [allInstructions]
      · have hlen := hpart.length
        simp only [allInstructions, List.flatMap_nil, List.length_nil,
          Array.length_toList] at hlen ⊢
        omega
  | cons q front ih =>
      obtain ⟨first, rest, hfirst, hrest, rfl⟩ := List.forall₂_cons_left_iff.1 h
      obtain ⟨part, hpart, hat⟩ := ih hrest
      refine ⟨part, hpart, fun l hl => ?_⟩
      have hlen : first.length = q.2.instructions.size := by simpa using hfirst.length
      rw [List.flatten_cons, length_allInstructions_cons,
        List.getElem?_append_right (by omega), ← hat l hl]
      congr 1
      omega

/-- Emission keeps destinations. -/
theorem Parted.destinations {g : FlowGraph τ} {blocks : List (Node × Block τ)}
    {parts : List (List (Emission τ))} (h : Parted g blocks parts) :
    (emittedInstructions parts.flatten).map Instruction.destination? =
      (allInstructions blocks).map Instruction.destination? := by
  have hpart : ∀ {n : Node} {b : Block τ} {m : LocalMap} {is : List (Instruction τ)}
      {es : List (Emission τ)}, EmitsAll g n b m is es →
      (emittedInstructions es).map Instruction.destination? = is.map Instruction.destination? := by
    intro n b m is es hes
    induction hes with
    | nil => rfl
    | cons _ _ ih =>
        rw [List.map_cons, ← ih]
        rfl
  unfold emittedInstructions allInstructions at *
  induction h with
  | nil => rfl
  | cons hq _ ih =>
      rw [List.flatten_cons, List.map_append, List.map_append, hpart hq, ih, List.flatMap_cons,
        List.map_append]

/-! ## From a stream to a rendering -/

/-- What a renamed block imports is a local of the program. -/
theorem Naming.mem_locals_of_imports {p : Program τ} {g g' : FlowGraph τ}
    {ds : List (Local × Local)} (h : Naming p g g' ds) {n : Node} {b b' : Block τ} {start : Nat}
    {z : Local} (hp : Placed g.blocksInOrder n b start) (hr : b.RenamedTo b')
    (hz : b'.imports z = true) : z ∈ p.locals := by
  obtain ⟨q, i, hi, hzi⟩ := hr.imports hz
  rw [← h.laid.at?_eq hp (Array.getElem?_eq_some_iff.1 hi).1] at hi
  exact Program.mem_locals_of_operand hi hzi

/-- A new destination is not a local of the program, so no block imports it. -/
theorem Naming.imports_eq_false {p : Program τ} {g g' : FlowGraph τ} {ds : List (Local × Local)}
    (h : Naming p g g' ds) {n : Node} {b b' : Block τ} {start l : Nat} {z : Local}
    (hp : Placed g.blocksInOrder n b start) (hp' : Placed g'.blocksInOrder n b' start)
    (hr : b.RenamedTo b') (hz : b'.Assigns z l) : b'.imports z = false := by
  by_contra himports
  rw [Bool.not_eq_false] at himports
  refine h.unmentioned z ?_ (h.mem_locals_of_imports hp hr himports)
  obtain ⟨r, hr', hzr⟩ := hz
  rw [h.names]
  refine List.mem_filterMap.2 ⟨r, List.mem_of_getElem? (i := start + l) ?_, hzr⟩
  rw [hp'.getElem? (Array.getElem?_eq_some_iff.1 hr').1]
  exact hr'

namespace Stream

variable {p : Program τ} {g g' : FlowGraph τ} {ds : List (Local × Local)}
  {parts : List (List (Emission τ))} {events : List (Event τ)}

theorem parted (h : Stream p g g' ds parts events) : Parted g' g'.blocksInOrder parts := by
  have hemitted := h.emitted
  unfold FlowGraph.blocksInOrder
  generalize g'.order.toList = ns at hemitted
  clear h
  induction hemitted with
  | nil => exact .nil
  | cons hn _ ih =>
      obtain ⟨b, hb, hes⟩ := hn
      rw [List.filterMap_cons_some (by rw [hb]; rfl)]
      exact .cons hes ih

theorem destinationAt_emitted (h : Stream p g g' ds parts events) (k : Nat) :
    destinationAt (emittedInstructions parts.flatten) k =
      destinationAt (allInstructions g'.blocksInOrder) k := by
  rw [destinationAt_eq, destinationAt_eq, h.parted.destinations]

theorem destinations_emitted (h : Stream p g g' ds parts events) :
    destinations (emittedInstructions parts.flatten) = ds.map (·.1) := by
  rw [h.names, destinations_eq, destinations_eq, h.parted.destinations]

/-- A block, the renamed block and its part of the emissions. -/
structure Site (g g' : FlowGraph τ) (parts : List (List (Emission τ))) (n : Node)
    (b b' : Block τ) (start : Nat) (part : List (Emission τ)) : Prop where
  placed : Placed g.blocksInOrder n b start
  placed' : Placed g'.blocksInOrder n b' start
  renamed : b.RenamedTo b'
  emits : EmitsAll g' n b' ∅ b'.instructions.toList part
  emission : ∀ l < b.instructions.size, parts.flatten[start + l]? = part[l]?

theorem exists_site (h : Stream p g g' ds parts events) {k : Nat} (hk : k < p.size) :
    ∃ n b b' start part l, Site g g' parts n b b' start part ∧ l < b.instructions.size ∧
      k = start + l := by
  obtain ⟨n, b, start, l, hp, hl, rfl⟩ := h.laid.exists_place hk
  obtain ⟨b', hp', hr⟩ := h.renamed.placed hp
  obtain ⟨part, hemits, hat⟩ := h.parted.placed hp'
  exact ⟨n, b, b', start, part, l, ⟨hp, hp', hr, hemits, hr.size ▸ hat⟩, hl, rfl⟩

theorem exists_site_at (h : Stream p g g' ds parts events) {k : Nat} {i : Instruction τ}
    {e : Emission τ} (hi : p.at? k = some i) (he : parts.flatten[k]? = some e) :
    ∃ n b b' start part l r, Site g g' parts n b b' start part ∧ k = start + l ∧
      b.instructions[l]? = some i ∧ b'.instructions[l]? = some r ∧ part[l]? = some e := by
  obtain ⟨n, b, b', start, part, l, hs, hl, rfl⟩ :=
    h.exists_site (Array.getElem?_eq_some_iff.1 hi).1
  rw [hs.emission l hl] at he
  rw [h.laid.at?_eq hs.placed hl] at hi
  have hl' : l < b'.instructions.size := by
    rw [hs.renamed.size]
    exact hl
  exact ⟨n, b, b', start, part, l, _, hs, rfl, hi, Array.getElem?_eq_getElem hl', he⟩

section Site

variable {n : Node} {b b' : Block τ} {start l : Nat} {part : List (Emission τ)}

theorem mergedAt (h : Stream p g g' ds parts events) (hs : Site g g' parts n b b' start part)
    (hl : l < b.instructions.size) {x : Local} {cs : List Contributor}
    (hno : ∀ q < l, ¬ b.Assigns x q) (hcs : g'.reachingDefinitions n x = .ok cs) :
    MergedAt p g parts.flatten (start + l) x cs := by
  unfold MergedAt
  simp only [h.destinationAt_emitted]
  exact h.renamed.contributors h.laid hs.placed hl hno hcs

theorem straight (h : Stream p g g' ds parts events) (hs : Site g g' parts n b b' start part)
    (hl : l < b.instructions.size) {x : Local} (hno : ∀ q < l, ¬ b.Assigns x q) (l' : Nat) :
    Straight p x (start + l') (start + l) := by
  intro q hwq hqk
  obtain ⟨m, rfl⟩ : ∃ m, q = start + m := ⟨q - start, by omega⟩
  refine ⟨?_, fun j hj => ?_⟩
  · rw [h.laid.assigns_iff hs.placed (by omega)]
    exact hno m (by omega)
  · exact (h.laid.canFollow_inner (fun _ => id) hs.placed (l := m) (by omega)).1 hj

theorem readAt_of_readsAs (h : Stream p g g' ds parts events)
    (hs : Site g g' parts n b b' start part) (hl : l < b.instructions.size) {x y : Local}
    {e : Emission τ} (hno : ∀ q < l, ¬ b.Assigns x q) (he : part[l]? = some e)
    (hread : ReadsAs g' n ((part.take l).flatMap Emission.phis ++ e.phis) x y) :
    ReadAt p g parts.flatten (start + l) x y := by
  cases hread with
  | unresolved hcs =>
      obtain ⟨ds, -, hds, hall⟩ := h.mergedAt hs hl hno hcs
      cases List.forall₂_nil_right_iff.1 hall
      exact .unresolved fun d hd => absurd ((hds d).2 hd) List.not_mem_nil
  | single hcs =>
      obtain ⟨ds, -, hds, hall⟩ := h.mergedAt hs hl hno hcs
      obtain ⟨d, rest, hd, hrest, rfl⟩ := List.forall₂_cons_right_iff.1 hall
      cases List.forall₂_nil_right_iff.1 hrest
      exact .single (fun d' => by rw [← hds, List.mem_singleton]) hd.1
  | @merged φ hφ ho hcs hlen =>
      -- the phi stands in front of this instruction or of an earlier one of the block
      obtain ⟨l', e', hle, he', hφ'⟩ : ∃ l' e', l' ≤ l ∧ part[l']? = some e' ∧ φ ∈ e'.phis := by
        rcases List.mem_append.1 hφ with hφ | hφ
        · obtain ⟨e', hmem, hφ'⟩ := List.mem_flatMap.1 hφ
          obtain ⟨l', hl'⟩ := List.mem_iff_getElem?.1 hmem
          rw [List.getElem?_take] at hl'
          split at hl'
          · exact ⟨l', e', by omega, hl', hφ'⟩
          · cases hl'
        · exact ⟨l, e, Nat.le_refl l, he, hφ⟩
      refine .merged (w := start + l') (e := e') (by omega) ?_ hφ' ho (h.mergedAt hs hl hno hcs)
        hlen (h.straight hs hl hno l')
      rw [hs.emission l' (by omega)]
      exact he'

theorem Site.emittedFrom (hs : Site g g' parts n b b' start part) {r : Instruction τ}
    {e : Emission τ} (hr : b'.instructions[l]? = some r) (he : part[l]? = some e) :
    EmittedFrom g' n b' ((part.take l).flatMap Emission.phis) r e := by
  have hstart : KnownNames g' n [] ∅ := fun x y hxy => by simp at hxy
  have hplace := hs.emits.place hstart (by rw [Array.getElem?_toList]; exact hr) he
  rwa [List.nil_append] at hplace

theorem operands (h : Stream p g g' ds parts events) (hs : Site g g' parts n b b' start part)
    {i r : Instruction τ} {e : Emission τ} (hi : b.instructions[l]? = some i)
    (hr : b'.instructions[l]? = some r) (he : part[l]? = some e) :
    List.Forall₂ (ReadAt p g parts.flatten (start + l)) i.operands e.instruction.operands := by
  have hl := (Array.getElem?_eq_some_iff.1 hi).1
  have hfinal := (hs.emittedFrom hr he).operands
  have hlen := (hs.renamed.kept hi hr).2.2.1
  rw [List.forall₂_iff_get] at hfinal ⊢
  refine ⟨hlen.symm.trans hfinal.1, fun j hj hj' => ?_⟩
  have hjr : j < r.operands.length := by omega
  have hy := hfinal.2 j hjr hj'
  rcases hs.renamed.operand_cases hi hr (List.getElem?_eq_getElem hj) with
    ⟨l', hl', ha, hno, z, hz, hza⟩ | ⟨hno, hx, himports⟩
  · -- the name of an assignment above in the block is final
    obtain rfl : r.operands.get ⟨j, hjr⟩ = z := (List.getElem?_eq_some_iff.1 hz).2
    rw [Final, if_neg (by rw [h.imports_eq_false hs.placed hs.placed' hs.renamed hza]; simp)] at hy
    rw [hy]
    refine .single (d := start + l')
      (fun d => h.laid.reaching_inside hs.placed hl hl' ha hno) ?_
    obtain ⟨r', hr', hd⟩ := hza
    rw [h.destinationAt_emitted, destinationAt,
      hs.placed'.getElem? (Array.getElem?_eq_some_iff.1 hr').1, hr', Option.bind_some, hd]
  · have hxr : r.operands.get ⟨j, hjr⟩ = i.operands.get ⟨j, hj⟩ :=
      (List.getElem?_eq_some_iff.1 hx).2
    rw [hxr, Final, if_pos (show b'.imports (i.operands.get ⟨j, hj⟩) = true from himports)] at hy
    exact h.readAt_of_readsAs hs hl hno he hy

theorem phis (h : Stream p g g' ds parts events) (hs : Site g g' parts n b b' start part)
    {i r : Instruction τ} {e : Emission τ} {φ : Phi} (hi : b.instructions[l]? = some i)
    (hr : b'.instructions[l]? = some r) (he : part[l]? = some e) (hφ : φ ∈ e.phis) :
    φ.offset = i.offset ∧ φ.origin ∈ i.operands ∧
      MergedAt p g parts.flatten (start + l) φ.origin φ.contributors ∧
      2 ≤ φ.contributors.length := by
  have hl := (Array.getElem?_eq_some_iff.1 hi).1
  obtain ⟨ho, hmem, himports, hcs, hlen⟩ := (hs.emittedFrom hr he).phis φ hφ
  obtain ⟨hoffset, -, hlength, -⟩ := hs.renamed.kept hi hr
  obtain ⟨j, hj⟩ := List.mem_iff_getElem?.1 hmem
  have hji : j < i.operands.length := by
    have := (List.getElem?_eq_some_iff.1 hj).1
    omega
  rcases hs.renamed.operand_cases hi hr (List.getElem?_eq_getElem hji) with
    ⟨l', hl', -, -, z, hz, hza⟩ | ⟨hno, hx, -⟩
  · rw [hj] at hz
    cases hz
    rw [h.imports_eq_false hs.placed hs.placed' hs.renamed hza] at himports
    cases himports
  · rw [hj] at hx
    have hx := Option.some.inj hx
    rw [← hx] at hno
    refine ⟨ho.trans hoffset, ?_, h.mergedAt hs hl hno hcs, hlen⟩
    rw [hx]
    exact List.getElem_mem hji

end Site

/-- **The emissions of a successful conversion render its program.** -/
theorem rendering (h : Stream p g g' ds parts events) : Rendering p g parts.flatten := by
  have hlength : parts.flatten.length = p.size := by
    have hmap := congrArg List.length h.parted.destinations
    have hall : allInstructions g.blocksInOrder = p.instructions.toList := h.laid.contents
    rw [emittedInstructions, List.length_map, List.length_map, List.length_map,
      h.renamed.length_allInstructions, hall, Array.length_toList] at hmap
    exact hmap
  refine ⟨hlength, ?_, ?_, ?_⟩
  · intro k i e hi he
    obtain ⟨n, b, b', start, part, l, r, hs, rfl, hi, hr, he⟩ := h.exists_site_at hi he
    obtain ⟨ho, ht, -, ha⟩ := hs.renamed.kept hi hr
    rw [(hs.emittedFrom hr he).kept]
    exact ⟨ho, ht, ha⟩
  · intro k i e hi he
    obtain ⟨n, b, b', start, part, l, r, hs, rfl, hi, hr, he⟩ := h.exists_site_at hi he
    exact h.operands hs hi hr he
  · intro k e φ he hφ
    have hk : k < p.size := by
      rw [← hlength]
      exact (List.getElem?_eq_some_iff.1 he).1
    have hi : p.at? k = some p.instructions[k] := Array.getElem?_eq_getElem hk
    obtain ⟨n, b, b', start, part, l, r, hs, rfl, hi', hr, he⟩ := h.exists_site_at hi he
    exact ⟨_, hi, h.phis hs hi' hr he hφ⟩

end Stream

end SingleAssignment
