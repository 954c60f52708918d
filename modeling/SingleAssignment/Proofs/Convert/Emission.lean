import SingleAssignment.Convert.Conversion
import SingleAssignment.Proofs.Flow.Reservation

/-!
# What emission reports

Emission walks over the renamed blocks and turns each instruction into some phis and the instruction
with its final operands.  The relations of this module say what one step of the walk can do; they
follow the recursion of the walk and leave out its bookkeeping.

* `Run.Advances` — a run goes on by some events and takes some locals from its supply.
* `Emission` — one instruction in its final form with the phis reported in front of it.
* `Resolves`, `ResolvesAll`, `EmitsAll` — one operand, the operands of an instruction, the
  instructions of a block.
* `Run.emitBlocks_ok` — **a successful walk reports the emissions of the blocks in order.**
-/

namespace SingleAssignment

variable {τ : Type}

/-! ## Going on -/

/-- The run goes on by `events` and takes the locals `ids` from its supply. -/
structure Run.Advances (r : Run τ) (events : List (Event τ)) (ids : List Local) (r' : Run τ) :
    Prop where
  events : r'.events.toList = r.events.toList ++ events
  supply : r.supply.Mints ids r'.supply

namespace Run

theorem Advances.refl (r : Run τ) : r.Advances [] [] r := ⟨by simp, .nil _⟩

theorem Advances.trans {r s t : Run τ} {es fs : List (Event τ)} {ids jds : List Local}
    (h : r.Advances es ids s) (h' : s.Advances fs jds t) : r.Advances (es ++ fs) (ids ++ jds) t :=
  ⟨by rw [h'.events, h.events, List.append_assoc], h.supply.append h'.supply⟩

theorem report_ok {e : Event τ} {r r' : Run τ} {u : Unit} (h : report e r = .ok u r') :
    r.Advances [e] [] r' := by
  cases h
  exact ⟨by simp, .nil _⟩

theorem log_ok {entry : LogRecord} {r r' : Run τ} {u : Unit} (h : log entry r = .ok u r') :
    r.Advances [] [] r' := by
  cases h
  exact ⟨by simp, .nil _⟩

theorem count_ok {f : Stats → Stats} {r r' : Run τ} {u : Unit} (h : count f r = .ok u r') :
    r.Advances [] [] r' := by
  cases h
  exact ⟨by simp, .nil _⟩

theorem supplied_ok {α : Type} {x : EStateM Fault Supply α} {r r' : Run τ} {a : α}
    (h : supplied x r = .ok a r') : ∃ s, x r.supply = .ok a s ∧ r' = { r with supply := s } := by
  unfold supplied at h
  split at h
  · rename_i b s hx
    cases h
    exact ⟨s, hx, rfl⟩
  · cases h

theorem ofExcept_ok {α : Type} {x : Except Fault α} {r r' : Run τ} {a : α}
    (h : (MonadExcept.ofExcept x : RunM τ α) r = .ok a r') : x = .ok a ∧ r' = r := by
  cases x with
  | error e => cases h
  | ok b =>
      cases h
      exact ⟨rfl, rfl⟩

end Run

/-! ## Emissions -/

/-- An instruction in its final form and the phis reported in front of it. -/
structure Emission (τ : Type) where
  phis : List Phi
  instruction : Instruction τ

/-- The events of a phi. -/
def Phi.events (φ : Phi) : List (Event τ) := [.unalias φ.result φ.origin, .phi φ]

/-- The events of an emission. -/
def Emission.events (e : Emission τ) : List (Event τ) :=
  e.phis.flatMap Phi.events ++ [.instruction e.instruction]

/-- The locals minted for an emission. -/
def Emission.results (e : Emission τ) : List Local := e.phis.map (·.result)

section Block

variable (g : FlowGraph τ) (n : Node) (b : Block τ)

/-- What becomes of one operand: from the names `m`, `x` becomes `y` after some phis, and `m'` is
known behind. -/
inductive Resolves (offset : Offset) (m : LocalMap) (x : Local) :
    List Phi → Local → LocalMap → Prop where
  | final : b.imports x = false → Resolves offset m x [] x m
  | known {y : Local} : b.imports x = true → m[x]? = some y → Resolves offset m x [] y m
  | unresolved : b.imports x = true → m[x]? = none → g.reachingDefinitions n x = .ok [] →
      Resolves offset m x [] x (m.insert x x)
  | single {c : Contributor} : b.imports x = true → m[x]? = none →
      g.reachingDefinitions n x = .ok [c] → Resolves offset m x [] c.value (m.insert x c.value)
  | merged {φ : Phi} : b.imports x = true → m[x]? = none → φ.offset = offset → φ.origin = x →
      g.reachingDefinitions n x = .ok φ.contributors → 2 ≤ φ.contributors.length →
      Resolves offset m x [φ] φ.result (m.insert x φ.result)

/-- What becomes of the operands of one instruction. -/
inductive ResolvesAll (offset : Offset) :
    LocalMap → List Local → List Phi → List Local → LocalMap → Prop where
  | nil {m : LocalMap} : ResolvesAll offset m [] [] [] m
  | cons {m m' m'' : LocalMap} {x y : Local} {xs ys : List Local} {φs ψs : List Phi} :
      Resolves g n b offset m x φs y m' → ResolvesAll offset m' xs ψs ys m'' →
      ResolvesAll offset m (x :: xs) (φs ++ ψs) (y :: ys) m''

/-- What becomes of the instructions of one block. -/
inductive EmitsAll : LocalMap → List (Instruction τ) → List (Emission τ) → Prop where
  | nil {m : LocalMap} : EmitsAll m [] []
  | cons {m m' : LocalMap} {i : Instruction τ} {is : List (Instruction τ)} {φs : List Phi}
      {ys : List Local} {es : List (Emission τ)} :
      ResolvesAll g n b i.offset m i.operands φs ys m' → EmitsAll m' is es →
      EmitsAll m (i :: is) (⟨φs, { i with operands := ys }⟩ :: es)

end Block

/-! ## The walk -/

namespace Run

variable {g : FlowGraph τ} {n : Node} {b : Block τ}

/-- What resolving an import can do. -/
theorem resolveImport_cases {offset : Offset} {x y : Local} {r r' : Run τ}
    (h : resolveImport g n offset x r = .ok y r') :
    (g.reachingDefinitions n x = .ok [] ∧ y = x ∧
      r' = { r with
        stats := { r.stats with unresolvedImports := r.stats.unresolvedImports + 1 } }) ∨
    (∃ c, g.reachingDefinitions n x = .ok [c] ∧ y = c.value ∧ r' = r) ∨
    ∃ cs s, g.reachingDefinitions n x = .ok cs ∧ 2 ≤ cs.length ∧
      Supply.fresh r.supply = .ok y s ∧
      r' = {
        supply := s
        events := (r.events.push (.unalias y x)).push (.phi ⟨offset, y, x, cs⟩)
        journal := r.journal.push (.phiPlaced ⟨offset, y, x, cs⟩)
        stats := { r.stats with phis := r.stats.phis + 1 } } := by
  obtain ⟨cs, r₀, hsearch, h₁⟩ := Outcome.of_run_bind h
  obtain ⟨hcs, rfl⟩ := ofExcept_ok hsearch
  match cs, hcs, h₁ with
  | [], hcs, h₁ =>
      cases h₁
      exact .inl ⟨hcs, rfl, rfl⟩
  | [c], hcs, h₁ =>
      obtain ⟨rfl, rfl⟩ := Outcome.of_run_pure h₁
      exact .inr (.inl ⟨c, hcs, rfl, rfl⟩)
  | c :: d :: cs, hcs, h₁ =>
      obtain ⟨result, r₁, hsupplied, h₁⟩ := Outcome.of_run_bind h₁
      obtain ⟨s, hfresh, rfl⟩ := supplied_ok hsupplied
      cases h₁
      exact .inr (.inr ⟨_, s, hcs, by simp, hfresh, rfl⟩)

/-- What a new import resolves to. -/
theorem resolveImport_ok {offset : Offset} {m : LocalMap} {x y : Local} {r r' : Run τ}
    (hx : b.imports x = true) (hm : m[x]? = none)
    (h : resolveImport g n offset x r = .ok y r') :
    ∃ φs, Resolves g n b offset m x φs y (m.insert x y) ∧
      r.Advances (φs.flatMap Phi.events) (φs.map (·.result)) r' := by
  rcases resolveImport_cases h with
    ⟨hcs, rfl, rfl⟩ | ⟨c, hcs, rfl, rfl⟩ | ⟨cs, s, hcs, hlen, hfresh, rfl⟩
  · exact ⟨[], .unresolved hx hm hcs, ⟨by simp, .nil _⟩⟩
  · exact ⟨[], .single hx hm hcs, .refl _⟩
  · refine ⟨[⟨offset, y, x, cs⟩],
      .merged (φ := ⟨offset, y, x, cs⟩) hx hm rfl rfl hcs hlen, ?_⟩
    exact ⟨by simp [Phi.events], Supply.mints_of_fresh hfresh⟩

theorem noteUnresolved_ok {offset : Offset} {x y : Local} {r r' : Run τ} {u : Unit}
    (h : noteUnresolved b offset x y r = .ok u r') : r.Advances [] [] r' := by
  unfold noteUnresolved at h
  split at h
  · exact log_ok h
  · obtain ⟨-, rfl⟩ := Outcome.of_run_pure h
    exact .refl r

theorem resolveOperand_ok {offset : Offset} {m m' : LocalMap} {x y : Local} {r r' : Run τ}
    (h : resolveOperand g n b offset m x r = .ok (y, m') r') :
    ∃ φs, Resolves g n b offset m x φs y m' ∧
      r.Advances (φs.flatMap Phi.events) (φs.map (·.result)) r' := by
  unfold resolveOperand at h
  by_cases hx : b.imports x = true
  · rw [if_pos hx] at h
    cases hz : m[x]? with
    | some z =>
        rw [hz] at h
        obtain ⟨he, rfl⟩ := Outcome.of_run_pure h
        cases he
        exact ⟨[], .known hx hz, .refl r⟩
    | none =>
        rw [hz] at h
        obtain ⟨z, s, himport, h₁⟩ := Outcome.of_run_bind h
        obtain ⟨_, t, hnote, h₁⟩ := Outcome.of_run_bind h₁
        obtain ⟨he, rfl⟩ := Outcome.of_run_pure h₁
        cases he
        obtain ⟨φs, hres, hadv⟩ := resolveImport_ok hx hz himport
        refine ⟨φs, hres, ?_⟩
        simpa using hadv.trans (noteUnresolved_ok hnote)
  · rw [if_neg hx] at h
    obtain ⟨he, rfl⟩ := Outcome.of_run_pure h
    cases he
    exact ⟨[], .final (by simpa using hx), .refl r⟩

theorem resolveOperands_ok {offset : Offset} {m m' : LocalMap} {xs ys : List Local} {r r' : Run τ}
    (h : resolveOperands g n b offset m xs r = .ok (ys, m') r') :
    ∃ φs, ResolvesAll g n b offset m xs φs ys m' ∧
      r.Advances (φs.flatMap Phi.events) (φs.map (·.result)) r' := by
  induction xs generalizing m r ys with
  | nil =>
      obtain ⟨he, rfl⟩ := Outcome.of_run_pure h
      cases he
      exact ⟨[], .nil, .refl r⟩
  | cons x xs ih =>
      obtain ⟨⟨y, m₁⟩, s, hx, h₁⟩ := Outcome.of_run_bind h
      obtain ⟨⟨zs, m₂⟩, t, hxs, h₂⟩ := Outcome.of_run_bind h₁
      obtain ⟨he, rfl⟩ := Outcome.of_run_pure h₂
      cases he
      obtain ⟨φs, hres, hadv⟩ := resolveOperand_ok hx
      obtain ⟨ψs, hrest, hadv'⟩ := ih hxs
      refine ⟨φs ++ ψs, .cons hres hrest, ?_⟩
      rw [List.flatMap_append, List.map_append]
      exact hadv.trans hadv'

theorem emitInstructions_ok {m : LocalMap} {is : List (Instruction τ)} {r r' : Run τ} {u : Unit}
    (h : emitInstructions g n b m is r = .ok u r') :
    ∃ es, EmitsAll g n b m is es ∧
      r.Advances (es.flatMap Emission.events) (es.flatMap Emission.results) r' := by
  induction is generalizing m r with
  | nil =>
      obtain ⟨-, rfl⟩ := Outcome.of_run_pure h
      exact ⟨[], .nil, .refl r⟩
  | cons i is ih =>
      obtain ⟨⟨ys, m₁⟩, s, hops, h₁⟩ := Outcome.of_run_bind h
      obtain ⟨_, t, hcount, h₁⟩ := Outcome.of_run_bind h₁
      obtain ⟨_, v, hreport, h₁⟩ := Outcome.of_run_bind h₁
      obtain ⟨φs, hres, hadv⟩ := resolveOperands_ok hops
      obtain ⟨es, hrest, hadv'⟩ := ih h₁
      refine ⟨_, .cons hres hrest, ?_⟩
      have hone := hadv.trans ((count_ok hcount).trans (report_ok hreport))
      simpa [Emission.events, Emission.results] using hone.trans hadv'

/-- **A successful walk reports the emissions of the blocks in order.** -/
theorem emitBlocks_ok {ns : List Node} {r r' : Run τ} {u : Unit}
    (h : emitBlocks g ns r = .ok u r') :
    ∃ parts : List (List (Emission τ)),
      List.Forall₂ (fun n es => ∃ b, g.block? n = some b ∧
        EmitsAll g n b ∅ b.instructions.toList es) ns parts ∧
      r.Advances (parts.flatten.flatMap Emission.events)
        (parts.flatten.flatMap Emission.results) r' := by
  induction ns generalizing r with
  | nil =>
      obtain ⟨-, rfl⟩ := Outcome.of_run_pure h
      exact ⟨[], .nil, .refl r⟩
  | cons n ns ih =>
      obtain ⟨b, s, hof, h₁⟩ := Outcome.of_run_bind h
      obtain ⟨hb, rfl⟩ := FlowGraph.blockOf_ok hof
      obtain ⟨_, t, hemit, h₁⟩ := Outcome.of_run_bind h₁
      obtain ⟨es, hes, hadv⟩ := emitInstructions_ok hemit
      obtain ⟨parts, hparts, hadv'⟩ := ih h₁
      refine ⟨es :: parts, .cons ⟨b, hb, hes⟩ hparts, ?_⟩
      rw [List.flatten_cons, List.flatMap_append, List.flatMap_append]
      exact hadv.trans hadv'

end Run

/-! ## Emissions by place -/

section Place

variable {g : FlowGraph τ} {n : Node} {b : Block τ} {offset : Offset}

/-- What an import of `x` refers to, given the phis reported so far in the block. -/
inductive ReadsAs (g : FlowGraph τ) (n : Node) (reported : List Phi) (x : Local) :
    Local → Prop where
  | unresolved : g.reachingDefinitions n x = .ok [] → ReadsAs g n reported x x
  | single {c : Contributor} : g.reachingDefinitions n x = .ok [c] → ReadsAs g n reported x c.value
  | merged {φ : Phi} : φ ∈ reported → φ.origin = x →
      g.reachingDefinitions n x = .ok φ.contributors → 2 ≤ φ.contributors.length →
      ReadsAs g n reported x φ.result

theorem ReadsAs.mono {reported reported' : List Phi} {x y : Local} (h : ReadsAs g n reported x y)
    (hsub : reported ⊆ reported') : ReadsAs g n reported' x y := by
  cases h with
  | unresolved h => exact .unresolved h
  | single h => exact .single h
  | merged hφ ho hcs hlen => exact .merged (hsub hφ) ho hcs hlen

/-- The names known in a block are what its imports refer to. -/
def KnownNames (g : FlowGraph τ) (n : Node) (reported : List Phi) (m : LocalMap) : Prop :=
  ∀ x y, m[x]? = some y → ReadsAs g n reported x y

/-- A phi for an import of the block. -/
def MergesImport (g : FlowGraph τ) (n : Node) (b : Block τ) (φ : Phi) : Prop :=
  b.imports φ.origin = true ∧ g.reachingDefinitions n φ.origin = .ok φ.contributors ∧
    2 ≤ φ.contributors.length

/-- What an operand `x` becomes. -/
def Final (g : FlowGraph τ) (n : Node) (b : Block τ) (reported : List Phi) (x y : Local) : Prop :=
  if b.imports x then ReadsAs g n reported x y else y = x

theorem Final.mono {reported reported' : List Phi} {x y : Local} (h : Final g n b reported x y)
    (hsub : reported ⊆ reported') : Final g n b reported' x y := by
  unfold Final at h ⊢
  split at h
  · rename_i hx
    rw [if_pos hx]
    exact h.mono hsub
  · rename_i hx
    rw [if_neg hx]
    exact h

theorem KnownNames.insert {reported reported' : List Phi} {m : LocalMap} {x y : Local}
    (hm : KnownNames g n reported m) (hsub : reported ⊆ reported')
    (hxy : ReadsAs g n reported' x y) : KnownNames g n reported' (m.insert x y) := by
  intro z w hz
  rw [Std.TreeMap.getElem?_insert] at hz
  split at hz
  · rename_i he
    cases hz
    rw [← Std.LawfulEqOrd.eq_of_compare he]
    exact hxy
  · exact (hm z w hz).mono hsub

theorem Resolves.sound {m m' : LocalMap} {x y : Local} {φs reported : List Phi}
    (h : Resolves g n b offset m x φs y m') (hm : KnownNames g n reported m) :
    KnownNames g n (reported ++ φs) m' ∧ Final g n b (reported ++ φs) x y := by
  have himport : ∀ {reported : List Phi}, b.imports x = true → ReadsAs g n reported x y →
      Final g n b reported x y := by
    intro reported hx hy
    rw [Final, if_pos hx]
    exact hy
  have hsub : reported ⊆ reported ++ φs := List.subset_append_left reported φs
  cases h with
  | final hx =>
      rw [List.append_nil]
      exact ⟨hm, by simp [Final, hx]⟩
  | known hx hy =>
      rw [List.append_nil]
      exact ⟨hm, himport hx (hm x y hy)⟩
  | unresolved hx _ hcs =>
      have hy : ReadsAs g n (reported ++ []) x x := .unresolved hcs
      exact ⟨hm.insert hsub hy, himport hx hy⟩
  | @single c hx _ hcs =>
      have hy : ReadsAs g n (reported ++ []) x c.value := .single hcs
      exact ⟨hm.insert hsub hy, himport hx hy⟩
  | @merged φ hx _ _ ho hcs hlen =>
      have hy : ReadsAs g n (reported ++ [φ]) x φ.result := .merged (by simp) ho hcs hlen
      exact ⟨hm.insert hsub hy, himport hx hy⟩

theorem Resolves.phis {m m' : LocalMap} {x y : Local} {φs : List Phi}
    (h : Resolves g n b offset m x φs y m') {φ : Phi} (hφ : φ ∈ φs) :
    φ.offset = offset ∧ φ.origin = x ∧ MergesImport g n b φ := by
  cases h with
  | merged hx _ ho hx' hcs hlen =>
      rw [List.mem_singleton.1 hφ]
      exact ⟨ho, hx', by rw [hx']; exact hx, by rw [hx']; exact hcs, hlen⟩
  | _ => cases hφ

theorem ResolvesAll.sound {m m' : LocalMap} {xs ys : List Local} {φs reported : List Phi}
    (h : ResolvesAll g n b offset m xs φs ys m') (hm : KnownNames g n reported m) :
    KnownNames g n (reported ++ φs) m' ∧
      List.Forall₂ (Final g n b (reported ++ φs)) xs ys := by
  induction h generalizing reported with
  | nil =>
      rw [List.append_nil]
      exact ⟨hm, .nil⟩
  | @cons m₁ m₂ m₃ x y xs ys φs ψs hx _ ih =>
      obtain ⟨hm', hy⟩ := hx.sound hm
      obtain ⟨hm'', hys⟩ := ih hm'
      -- phis for later operands only add to what this one may refer to
      rw [← List.append_assoc]
      exact ⟨hm'', .cons (hy.mono (List.subset_append_left _ ψs)) hys⟩

theorem ResolvesAll.phis {m m' : LocalMap} {xs ys : List Local} {φs : List Phi}
    (h : ResolvesAll g n b offset m xs φs ys m') {φ : Phi} (hφ : φ ∈ φs) :
    φ.offset = offset ∧ φ.origin ∈ xs ∧ MergesImport g n b φ := by
  induction h with
  | nil => cases hφ
  | cons hx _ ih =>
      rcases List.mem_append.1 hφ with hφ | hφ
      · obtain ⟨ho, hx', hmerge⟩ := hx.phis hφ
        exact ⟨ho, by rw [hx']; exact List.mem_cons_self, hmerge⟩
      · obtain ⟨ho, hx', hmerge⟩ := ih hφ
        exact ⟨ho, List.mem_cons_of_mem _ hx', hmerge⟩

/-- The emission of an instruction, given the phis reported before it in the block. -/
structure EmittedFrom (g : FlowGraph τ) (n : Node) (b : Block τ) (reported : List Phi)
    (i : Instruction τ) (e : Emission τ) : Prop where
  kept : e.instruction = { i with operands := e.instruction.operands }
  operands : List.Forall₂ (Final g n b (reported ++ e.phis)) i.operands e.instruction.operands
  phis : ∀ φ ∈ e.phis, φ.offset = i.offset ∧ φ.origin ∈ i.operands ∧ MergesImport g n b φ

theorem EmitsAll.length {m : LocalMap} {is : List (Instruction τ)} {es : List (Emission τ)}
    (h : EmitsAll g n b m is es) : es.length = is.length := by
  induction h with
  | nil => rfl
  | cons _ _ ih => rw [List.length_cons, List.length_cons, ih]

theorem EmitsAll.place {m : LocalMap} {is : List (Instruction τ)} {es : List (Emission τ)}
    {reported : List Phi} (h : EmitsAll g n b m is es) (hm : KnownNames g n reported m) {l : Nat}
    {i : Instruction τ} {e : Emission τ} (hi : is[l]? = some i) (he : es[l]? = some e) :
    EmittedFrom g n b (reported ++ (es.take l).flatMap Emission.phis) i e := by
  induction h generalizing reported l with
  | nil => cases hi
  | @cons m₁ m₂ j js φs ys es hops _ ih =>
      obtain ⟨hm', hys⟩ := hops.sound hm
      cases l with
      | zero =>
          cases hi
          cases he
          rw [List.take_zero, List.flatMap_nil, List.append_nil]
          exact ⟨rfl, hys, fun φ hφ => hops.phis hφ⟩
      | succ l =>
          rw [List.take_succ_cons, List.flatMap_cons, ← List.append_assoc]
          exact ih hm' hi he

end Place

end SingleAssignment
