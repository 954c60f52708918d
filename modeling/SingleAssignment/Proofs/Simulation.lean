import SingleAssignment.Proofs.Execution
import SingleAssignment.Proofs.Freshness

/-!
# Conversion preserves meaning

The instructions of a program and the instructions of its conversion are run side by side.  Both
runs stand at the same position at all times.  What ties their values together is the list of
positions executed so far:

* a local of the program has the value of the destination emitted for its last assignment,
* a phi has the value of its local from the time control arrives at it until the end of the stretch
  of instructions for which it stands.

* `Program.Path` — the positions executed so far, as a walk of control.
* `Simulates` — the two points of the runs belong together.
* `Simulates.step` — **one step keeps them together and shows the same.**
-/

namespace SingleAssignment

variable {τ V : Type}

/-! ## Walks of control -/

/-- Control has come to a position from the start, over the listed positions, latest first. -/
inductive Program.Path (p : Program τ) : List Nat → Nat → Prop where
  | start : Path p [] 0
  | step {d k : Nat} {ps : List Nat} : p.CanFollow d k → Path p ps d → Path p (d :: ps) k

/-- The last assignment to `x` on a list of positions. -/
def Program.latest? (p : Program τ) (x : Local) (ps : List Nat) : Option Nat :=
  ps.find? fun d => decide (p.Assigns x d)

theorem Program.latest?_cons (p : Program τ) (x : Local) (k : Nat) (ps : List Nat) :
    p.latest? x (k :: ps) = if p.Assigns x k then some k else p.latest? x ps := by
  unfold latest?
  rw [List.find?_cons]
  by_cases h : p.Assigns x k
  · simp [h]
  · simp [h]

theorem Program.assigns_of_latest? {p : Program τ} {x : Local} {ps : List Nat} {d : Nat}
    (h : p.latest? x ps = some d) : p.Assigns x d := by
  simpa using List.find?_some h

/-- The last assignment on a walk reaches its end. -/
theorem Program.Path.reaching {p : Program τ} {x : Local} {ps : List Nat} {k d : Nat}
    (h : p.Path ps k) (hd : p.latest? x ps = some d) : p.ReachingDefinition x d k := by
  refine ⟨p.assigns_of_latest? hd, ?_⟩
  induction h with
  | start => cases hd
  | @step e k ps hfollow _ ih =>
      rw [latest?_cons] at hd
      split at hd
      · cases hd
        exact .step hfollow
      · rename_i hnot
        exact .tail (ih hd) hnot hfollow

theorem Program.latest?_isSome {p : Program τ} {x : Local} {ps : List Nat}
    (h : x ∈ ps.filterMap (destinationAt p.instructions.toList)) :
    ∃ d, p.latest? x ps = some d := by
  obtain ⟨d, hd, hx⟩ := List.mem_filterMap.1 h
  rw [← Option.isSome_iff_exists, latest?, List.find?_isSome]
  refine ⟨d, hd, ?_⟩
  rw [destinationAt, Array.getElem?_toList, Option.bind_eq_some_iff] at hx
  exact decide_eq_true hx

/-- A stronger test finds the same element, if it holds there. -/
theorem find?_eq_of_imp {α : Type} {f f' : α → Bool} {l : List α} {a : α}
    (himp : ∀ b, f' b = true → f b = true) (h : l.find? f = some a) (ha : f' a = true) :
    l.find? f' = some a := by
  induction l with
  | nil => cases h
  | cons b l ih =>
      rw [List.find?_cons] at h ⊢
      cases hb : f b with
      | true =>
          rw [hb] at h
          cases h
          rw [ha]
      | false =>
          rw [hb] at h
          have hb' : f' b = false := by
            by_contra hne
            rw [himp b (by simpa using hne)] at hb
            cases hb
          rw [hb']
          exact ih h

/-! ## Positions and offsets -/

namespace Converted

variable {p : Program τ} {g : FlowGraph τ} {es : List (Emission τ)} {r : Recorder τ}

/-- The phis that are evaluated at a position are those emitted in front of it. -/
theorem phis_at (h : Converted p g es r) {k : Nat} {i : Instruction τ} {e : Emission τ}
    (hi : p.at? k = some i) (he : es[k]? = some e) :
    (es.flatMap Emission.phis).filter (·.offset == i.offset) = e.phis := by
  have hother : ∀ {w : Nat} {e' : Emission τ}, w ≠ k → es[w]? = some e' →
      e'.phis.filter (·.offset == i.offset) = [] := by
    intro w e' hwk he'
    rw [List.filter_eq_nil_iff]
    intro φ hφ ho
    obtain ⟨j, hj, hoj, -⟩ := h.rendering.phis he' hφ
    exact hwk (h.offset_injective hj hi (hoj.symm.trans (beq_iff_eq.1 ho)))
  obtain ⟨hk, rfl⟩ := List.getElem?_eq_some_iff.1 he
  have hsplit : es = es.take k ++ es[k] :: es.drop (k + 1) := by
    rw [List.getElem_cons_drop, List.take_append_drop]
  have hbefore : ((es.take k).flatMap fun e => e.phis.filter (·.offset == i.offset)) = [] := by
    rw [List.flatMap_eq_nil_iff]
    intro e' he'
    obtain ⟨w, hw⟩ := List.mem_iff_getElem?.1 he'
    rw [List.getElem?_take] at hw
    split at hw
    · exact hother (by omega) hw
    · cases hw
  have hafter : ((es.drop (k + 1)).flatMap fun e => e.phis.filter (·.offset == i.offset)) = [] := by
    rw [List.flatMap_eq_nil_iff]
    intro e' he'
    obtain ⟨w, hw⟩ := List.mem_iff_getElem?.1 he'
    rw [List.getElem?_drop] at hw
    exact hother (by omega) hw
  have hhere : es[k].phis.filter (·.offset == i.offset) = es[k].phis := by
    rw [List.filter_eq_self]
    intro φ hφ
    obtain ⟨j, hj, hoj, -⟩ := h.rendering.phis he hφ
    rw [hi] at hj
    cases hj
    exact beq_iff_eq.2 hoj
  rw [List.filter_flatMap]
  nth_rewrite 1 [hsplit]
  rw [List.flatMap_append, List.flatMap_cons, hbefore, hafter, hhere]
  simp

end Converted

/-- Control goes the same way from an instruction and from the one emitted for it. -/
theorem Converted.next_eq {p : Program τ} {g : FlowGraph τ} {es : List (Emission τ)}
    {r : Recorder τ} (h : Converted p g es r) (I : Interpretation τ V) {k : Nat}
    {i : Instruction τ} {e : Emission τ} (hi : p.at? k = some i) (he : es[k]? = some e)
    (operands : List V) (m : Nat) :
    r.listing.next I e.instruction operands m = p.listing.next I i operands m := by
  obtain ⟨-, htag, hsame⟩ := h.rendering.kept hi he
  have hfind : ∀ o : Offset, (emittedInstructions es).findIdx? (·.offset == o) =
      p.instructions.toList.findIdx? (·.offset == o) := by
    intro o
    have hmap := congrArg (List.findIdx? (· == o)) h.rendering.offsets
    rwa [List.findIdx?_map, List.findIdx?_map] at hmap
  have hlen : (emittedInstructions es).length = p.instructions.toList.length :=
    h.rendering.aligned.length_eq.symm
  unfold Listing.next
  rw [hsame.branch?_eq, htag]
  simp only [Recorder.listing, Program.listing, h.instructions, hfind, hlen]

/-! ## Two runs side by side -/

/-- Every operand with a reaching definition has been assigned before it is read. -/
def Program.ReadsAssigned (p : Program τ) (s : RunPoint V) : Prop :=
  ∀ i, p.at? s.position = some i → ∀ x ∈ i.operands,
    (∃ d, p.ReachingDefinition x d s.position) → x ∈ s.executed

/-- The run of a program at `s` and the run of its emissions at `t` belong together, after the
positions `ps` and from the values `init` of the locals of the program. -/
structure Simulates (p : Program τ) (es : List (Emission τ)) (init : Local → V) (ps : List Nat)
    (s t : RunPoint V) : Prop where
  position : t.position = s.position
  path : s.position < p.size → p.Path ps s.position
  executed : s.executed = ps.filterMap (destinationAt p.instructions.toList)
  executed' : t.executed = ps.filterMap (destinationAt (emittedInstructions es))
  assigned : ∀ {x : Local} {d : Nat}, p.latest? x ps = some d →
    ∃ y, destinationAt (emittedInstructions es) d = some y ∧ t.values y = s.values x
  unassigned : ∀ {x : Local}, p.latest? x ps = none → s.values x = init x
  untouched : ∀ {x : Local}, x ∈ p.locals → t.values x = init x
  merged : s.position < p.size → ∀ {w : Nat} {e : Emission τ} {φ : Phi}, w < s.position →
    es[w]? = some e → φ ∈ e.phis → Straight p φ.origin w s.position →
      t.values φ.result = s.values φ.origin

/-- The phis of the emission `e` have been evaluated at `t`. -/
structure Arrives (s t t' : RunPoint V) (e : Emission τ) : Prop where
  position : t'.position = t.position
  executed : t'.executed = t.executed
  frame : ∀ y, y ∉ e.phis.map (·.result) → t'.values y = t.values y
  values : ∀ φ ∈ e.phis, t'.values φ.result = s.values φ.origin

namespace Simulates

variable {p : Program τ} {g : FlowGraph τ} {es : List (Emission τ)} {r : Recorder τ}
  {init : Local → V} {ps : List Nat} {s t t' : RunPoint V} {i : Instruction τ} {e : Emission τ}

theorem start {init' : Local → V} (h : ∀ x ∈ p.locals, init' x = init x) :
    Simulates p es init [] { values := init } { values := init' } where
  position := rfl
  path := fun _ => .start
  executed := rfl
  executed' := rfl
  assigned := by
    intro x d hd
    cases hd
  unassigned := fun _ => rfl
  untouched := fun hx => h _ hx
  merged := by
    intro _ w e φ hw
    exact absurd hw (Nat.not_lt_zero w)

/-- The last assignment to a local reaches, and its emitted destination has the value. -/
theorem latest (hs : Simulates p es init ps s t) (hk : s.position < p.size) {x : Local}
    (hx : x ∈ s.executed) :
    ∃ d y, p.latest? x ps = some d ∧ p.ReachingDefinition x d s.position ∧
      destinationAt (emittedInstructions es) d = some y ∧ t.values y = s.values x := by
  rw [hs.executed] at hx
  obtain ⟨d, hd⟩ := Program.latest?_isSome hx
  obtain ⟨y, hy, hvalue⟩ := hs.assigned hd
  exact ⟨d, y, hd, (hs.path hk).reaching hd, hy, hvalue⟩

/-- The contributor assigned last is the emitted destination of the last assignment. -/
theorem source (hc : Converted p g es r) (hs : Simulates p es init ps s t)
    (hk : s.position < p.size) {φ : Phi}
    (hm : MergedAt p g es s.position φ.origin φ.contributors) (hx : φ.origin ∈ s.executed) :
    ∃ d y, φ.latest? t.executed = some y ∧ destinationAt (emittedInstructions es) d = some y ∧
      t.values y = s.values φ.origin := by
  obtain ⟨d, y, hd, hreach, hy, hvalue⟩ := hs.latest hk hx
  obtain ⟨ds, -, hmem, hnames⟩ := hm.names
  refine ⟨d, y, ?_, hy, hvalue⟩
  have hfind : ps.find? (fun a => (destinationAt (emittedInstructions es) a).any
      fun z => φ.contributors.any (·.value == z)) = some d := by
    refine find?_eq_of_imp ?_ hd ?_
    · -- a position whose destination contributes is one of the reaching definitions
      intro a ha
      obtain ⟨z, hz, hany⟩ := (Option.any_eq_true _ _).1 ha
      obtain ⟨c, hcs, hcz⟩ := List.any_eq_true.1 hany
      have hin : some z ∈ ds.map (destinationAt (emittedInstructions es)) := by
        rw [hnames, ← beq_iff_eq.1 hcz]
        exact List.mem_map_of_mem hcs
      obtain ⟨d', hd', hz'⟩ := List.mem_map.1 hin
      rw [hc.destinationAt_injective hz hz']
      exact decide_eq_true ((hmem d').1 hd').1
    · have hin : some y ∈ φ.contributors.map fun c => some c.value := by
        rw [← hnames, ← hy]
        exact List.mem_map_of_mem ((hmem d).2 hreach)
      obtain ⟨c, hcs, hcy⟩ := List.mem_map.1 hin
      rw [hy, Option.any_some, List.any_eq_true]
      exact ⟨c, hcs, beq_iff_eq.2 (Option.some.inj hcy)⟩
  rw [Phi.latest?, hs.executed', List.find?_filterMap, hfind, Option.bind_some, hy]

/-! ### Arrival and reads -/

theorem arrive (hc : Converted p g es r) (hs : Simulates p es init ps s t)
    (hi : p.at? s.position = some i) (he : es[s.position]? = some e)
    (hready : p.ReadsAssigned s) :
    ∃ t', evaluatePhis e.phis t = some t' ∧ Arrives s t t' e := by
  have hk : s.position < p.size := (Array.getElem?_eq_some_iff.1 hi).1
  have hsource : ∀ φ ∈ e.phis, ∃ y, φ.latest? t.executed = some y ∧
      t.values y = s.values φ.origin ∧ y ∉ e.phis.map (·.result) := by
    intro φ hφ
    obtain ⟨j, hj, -, hx, hm, hlen⟩ := hc.rendering.phis he hφ
    rw [hi] at hj
    cases hj
    obtain ⟨d, -, -, hd, -⟩ := hm.two_definitions hlen
    obtain ⟨d, y, hlatest, hy, hvalue⟩ := hs.source hc hk hm (hready i hi _ hx ⟨d, hd⟩)
    refine ⟨y, hlatest, hvalue, fun hin => ?_⟩
    obtain ⟨ψ, hψ, heq⟩ := List.mem_map.1 hin
    exact hc.destination_ne_result hy (mem_phis he hψ) heq.symm
  obtain ⟨t', ht', hpos, hexec, hframe, hvalues⟩ :=
    evaluatePhis_eq_some (fun φ => s.values φ.origin) hsource
      (hc.nodup_results.1 e (List.mem_of_getElem? he))
  exact ⟨t', ht', hpos, hexec, hframe, hvalues⟩

/-- Arrival leaves emitted destinations alone. -/
theorem values_destination (hc : Converted p g es r) (he : es[s.position]? = some e)
    (ha : Arrives s t t' e) {d : Nat} {y : Local}
    (hy : destinationAt (emittedInstructions es) d = some y) : t'.values y = t.values y := by
  refine ha.frame y fun hin => ?_
  obtain ⟨φ, hφ, heq⟩ := List.mem_map.1 hin
  exact hc.destination_ne_result hy (mem_phis he hφ) heq.symm

/-- Arrival leaves the locals of the program alone. -/
theorem values_local (hc : Converted p g es r) (hs : Simulates p es init ps s t)
    (he : es[s.position]? = some e) (ha : Arrives s t t' e) {x : Local} (hx : x ∈ p.locals) :
    t'.values x = init x := by
  rw [ha.frame x, hs.untouched hx]
  intro hin
  obtain ⟨φ, hφ, rfl⟩ := List.mem_map.1 hin
  exact hc.result_not_local (mem_phis he hφ) hx

/-- Arrival leaves the phis of the same stretch alone and evaluates its own. -/
theorem values_phi (hc : Converted p g es r) (hs : Simulates p es init ps s t)
    (hk : s.position < p.size) (he : es[s.position]? = some e) (ha : Arrives s t t' e) {w : Nat}
    {e' : Emission τ} {φ : Phi} (hw : w ≤ s.position) (he' : es[w]? = some e')
    (hφ : φ ∈ e'.phis) (hstraight : Straight p φ.origin w s.position) :
    t'.values φ.result = s.values φ.origin := by
  rcases Nat.lt_or_eq_of_le hw with hlt | rfl
  · rw [ha.frame, hs.merged hk hlt he' hφ hstraight]
    intro hin
    obtain ⟨ψ, hψ, heq⟩ := List.mem_map.1 hin
    exact hc.result_ne_of_lt hlt he' he hφ hψ heq.symm
  · rw [he] at he'
    cases he'
    exact ha.values φ hφ

theorem read (hc : Converted p g es r) (hs : Simulates p es init ps s t)
    (hi : p.at? s.position = some i) (he : es[s.position]? = some e) (ha : Arrives s t t' e)
    (hready : p.ReadsAssigned s) {x y : Local} (hx : x ∈ i.operands)
    (hread : ReadAt p g es s.position x y) : t'.values y = s.values x := by
  have hk : s.position < p.size := (Array.getElem?_eq_some_iff.1 hi).1
  cases hread with
  | unresolved hnone =>
      rw [hs.values_local hc he ha (Program.mem_locals_of_operand hi hx)]
      cases hd : p.latest? x ps with
      | none => rw [hs.unassigned hd]
      | some d => exact absurd ((hs.path hk).reaching hd) (hnone d)
  | @single d y hone hy =>
      have hd := (hone d).2 rfl
      obtain ⟨d', y', -, hreach, hy', hvalue⟩ := hs.latest hk (hready i hi x hx ⟨d, hd⟩)
      rw [(hone d').1 hreach, hy] at hy'
      cases hy'
      rw [values_destination hc he ha hy, hvalue]
  | merged hw he' hφ ho _ _ hstraight =>
      subst ho
      exact hs.values_phi hc hk he ha hw he' hφ hstraight

theorem reads (hc : Converted p g es r) (hs : Simulates p es init ps s t)
    (hi : p.at? s.position = some i) (he : es[s.position]? = some e) (ha : Arrives s t t' e)
    (hready : p.ReadsAssigned s) :
    e.instruction.operands.map t'.values = i.operands.map s.values := by
  have hreads := hc.rendering.operands hi he
  have hall := (List.forall₂_and_left (p := (· ∈ i.operands)) _ _).2 ⟨fun _ hx => hx, hreads⟩
  symm
  rw [← List.forall₂_eq_eq_eq, List.forall₂_map_left_iff, List.forall₂_map_right_iff]
  exact hall.imp fun x y hxy => (hs.read hc hi he ha hready hxy.1 hxy.2).symm

/-! ### Executing the instruction -/

theorem filterMap_destinationAt_cons (is : List (Instruction τ)) (k : Nat) (ps : List Nat) :
    (k :: ps).filterMap (destinationAt is) =
      (destinationAt is k).toList ++ ps.filterMap (destinationAt is) := by
  cases h : destinationAt is k <;> simp [h]

theorem advance (I : Interpretation τ V) (hc : Converted p g es r)
    (hs : Simulates p es init ps s t) (hi : p.at? s.position = some i)
    (he : es[s.position]? = some e) (ha : Arrives s t t' e) (operands : List V) :
    Simulates p es init (s.position :: ps) (p.listing.execute I i operands s)
      (r.listing.execute I e.instruction operands t') := by
  have hk : s.position < p.size := (Array.getElem?_eq_some_iff.1 hi).1
  obtain ⟨-, htag, hsame⟩ := hc.rendering.kept hi he
  have hdest := destinationAt_program hi
  have hdest' := destinationAt_emission he
  have hassigns : ∀ {x : Local}, p.Assigns x s.position ↔ i.destination? = some x := by
    intro x
    constructor
    · rintro ⟨j, hj, hx⟩
      rw [hi] at hj
      cases hj
      exact hx
    · exact fun hx => ⟨i, hi, hx⟩
  refine ⟨?_, ?_, ?_, ?_, ?_, ?_, ?_, ?_⟩
  · show r.listing.next I e.instruction operands t'.position =
      p.listing.next I i operands s.position
    rw [hc.next_eq I hi he, ha.position, hs.position]
  · intro hlt
    exact .step (Program.canFollow_next hi hlt) (hs.path hk)
  · rw [filterMap_destinationAt_cons, hdest, ← hs.executed]
    rfl
  · rw [filterMap_destinationAt_cons, hdest', ← hs.executed', ← ha.executed]
    rfl
  · intro x d hd
    rw [Program.latest?_cons] at hd
    split at hd
    · -- the instruction assigns `x`, and the emitted one its destination
      rename_i hx
      cases hd
      rw [hassigns] at hx
      obtain ⟨y, hy⟩ := hsame.exists_destination? hx
      refine ⟨y, hdest'.trans hy, ?_⟩
      rw [values_execute_of_eq hx, values_execute_of_eq hy, htag]
    · rename_i hx
      obtain ⟨y, hy, hvalue⟩ := hs.assigned hd
      refine ⟨y, hy, ?_⟩
      rw [values_execute_of_ne fun h => hx (hassigns.2 h), values_execute_of_ne,
        values_destination hc he ha hy, hvalue]
      intro hy'
      -- two destinations of one name would stand at one position
      have hd' := hc.destinationAt_injective hy (hdest'.trans hy')
      exact hx (hd' ▸ Program.assigns_of_latest? hd)
  · intro x hd
    rw [Program.latest?_cons] at hd
    split at hd
    · cases hd
    · rename_i hx
      rw [values_execute_of_ne fun h => hx (hassigns.2 h), hs.unassigned hd]
  · intro x hx
    rw [values_execute_of_ne, hs.values_local hc he ha hx]
    exact fun hy => hc.destination_not_local (hdest'.trans hy) hx
  · intro hlt w e' φ hw he' hφ hstraight
    have hfollow := Program.canFollow_next hi hlt
    -- the stretch of the phi is entered from the position before only
    obtain ⟨q, hq⟩ : ∃ q, p.listing.next I i operands s.position = q + 1 :=
      Nat.exists_eq_succ_of_ne_zero (Nat.ne_of_gt (Nat.lt_of_le_of_lt (Nat.zero_le w) hw))
    change w < p.listing.next I i operands s.position at hw
    change Straight p φ.origin w (p.listing.next I i operands s.position) at hstraight
    rw [hq] at hw hstraight hfollow
    obtain ⟨hnot, honly⟩ := hstraight q (by omega) (by omega)
    obtain rfl := honly s.position hfollow
    have hphi := hs.values_phi hc hk he ha (Nat.le_of_lt_succ hw) he' hφ
      fun q hwq hqk => hstraight q hwq (by omega)
    rw [values_execute_of_ne, values_execute_of_ne fun h => hnot (hassigns.2 h), hphi]
    intro hy
    exact hc.destination_ne_result (hdest'.trans hy) (mem_phis he' hφ) rfl

/-- **One step keeps the runs together and shows the same.** -/
theorem step (I : Interpretation τ V) (hc : Converted p g es r)
    (hs : Simulates p es init ps s t) (hready : p.ReadsAssigned s) :
    (p.listing.step I s = none ∧ r.listing.step I t = none) ∨
      ∃ o s' t', p.listing.step I s = some (o, s') ∧ r.listing.step I t = some (o, t') ∧
        Simulates p es init (s.position :: ps) s' t' := by
  have hcode : r.listing.code = emittedInstructions es := hc.instructions
  have hat : p.listing.code[s.position]? = p.at? s.position := Array.getElem?_toList
  cases hi : p.at? s.position with
  | none =>
      have hout : (emittedInstructions es)[t.position]? = none := by
        rw [hs.position, List.getElem?_eq_none_iff, emittedInstructions, List.length_map,
          hc.rendering.length]
        exact Array.getElem?_eq_none_iff.1 hi
      refine .inl ⟨?_, ?_⟩
      · rw [Listing.step, hat, hi]
      · rw [Listing.step, hcode, hout]
  | some i =>
      have hk : s.position < es.length := by
        rw [hc.rendering.length]
        exact (Array.getElem?_eq_some_iff.1 hi).1
      have he : es[s.position]? = some es[s.position] := List.getElem?_eq_getElem hk
      obtain ⟨t', ht', ha⟩ := hs.arrive hc hi he hready
      have hreads := hs.reads hc hi he ha hready
      have hcode' : (emittedInstructions es)[t.position]? = some es[s.position].instruction := by
        rw [hs.position, emittedInstructions, List.getElem?_map, he, Option.map_some]
      have hoffset := (hc.rendering.kept hi he).1
      refine .inr ⟨⟨i.offset, i.operands.map s.values⟩, _, _, ?_, ?_,
        hs.advance I hc hi he ha (i.operands.map s.values)⟩
      · rw [Listing.step, hat, hi]
        rfl
      · rw [Listing.step, hcode, hcode']
        simp only [Recorder.listing, hc.phis, hoffset, hc.phis_at hi he, ht', hreads]

theorem trace_eq (I : Interpretation τ V) (hc : Converted p g es r) (n : Nat)
    (hs : Simulates p es init ps s t)
    (hready : ∀ m < n, ∀ s', p.listing.after I m s = some s' → p.ReadsAssigned s') :
    r.listing.trace I n t = p.listing.trace I n s := by
  induction n generalizing ps s t with
  | zero => rfl
  | succ n ih =>
      rcases hs.step I hc (hready 0 (Nat.succ_pos n) s rfl) with
        ⟨hstep, hstep'⟩ | ⟨o, s', t', hstep, hstep', hs'⟩
      · rw [Listing.trace, Listing.trace, hstep, hstep']
      · rw [Listing.trace, Listing.trace, hstep, hstep']
        have htail := ih hs' fun m hm s'' hafter => by
          refine hready (m + 1) (Nat.succ_lt_succ hm) s'' ?_
          rw [Listing.after, hstep]
          exact hafter
        exact congrArg (o :: ·) htail

end Simulates

/-- **Conversion preserves meaning.**  For every interpretation and all values of the locals of the
program, the emitted instructions with their phis show the same offsets and the same operand values
as the program, step by step, as long as the program reads no local before assigning it that has a
reaching definition. -/
theorem convert_preserves_meaning {config : Config} {schedule : Schedule} {p : Program τ}
    {stats : Stats} (h : (convert config schedule p).outcome = .ok stats)
    (I : Interpretation τ V) (init init' : Local → V) (hinit : ∀ x ∈ p.locals, init' x = init x)
    (n : Nat)
    (hready : ∀ m < n, ∀ s, p.listing.after I m { values := init } = some s →
      p.ReadsAssigned s) :
    (convert config schedule p).recorded.listing.trace I n { values := init' } =
      p.listing.trace I n { values := init } := by
  obtain ⟨g, es, hc⟩ := convert_converted h
  exact (Simulates.start hinit).trace_eq I hc n hready

/-- An assignment adds up its operands and one more, and a branch is taken below three. -/
def summing : Interpretation Unit Nat where
  value := fun _ operands => operands.sum + 1
  decision := fun _ operands => decide (operands.sum < 3)

theorem countingLoop_readsAssigned {s : RunPoint Nat}
    (h : s.position = 0 ∨ ⟨5⟩ ∈ s.executed) : countingLoop.ReadsAssigned s := by
  intro i hi x hx ⟨d, ⟨j, hj, hjx⟩, _⟩
  -- only local 5 is assigned, and the first instruction reads nothing
  have hassigned : ∀ j ∈ countingLoop.instructions.toList, j.destination? = some x → x = ⟨5⟩ := by
    simp [countingLoop, Instruction.destination?]
    exact fun h => h.symm
  have hx5 := hassigned j (Array.mem_toList_iff.2 (Array.mem_of_getElem? hj)) hjx
  rcases h with h | h
  · rw [h] at hi
    cases hi
    cases hx
  · rw [hx5]
    exact h

/-- The converted counting loop goes through its loop twice and leaves it. -/
theorem countingLoop_preserved :
    (convert {} .sequential countingLoop).recorded.listing.trace summing 6
      { values := fun _ => 0 } =
        [⟨0, []⟩, ⟨1, [1, 0]⟩, ⟨2, [2]⟩, ⟨1, [2, 0]⟩, ⟨2, [3]⟩] := by
  rw [convert_preserves_meaning convert_countingLoop summing (fun _ => 0) _ (fun _ _ => rfl) 6]
  · rfl
  · intro m hm s hs
    apply countingLoop_readsAssigned
    match m, hm, hs with
    | 0, _, rfl => exact .inl rfl
    | 1, _, rfl => exact .inr (by decide)
    | 2, _, rfl => exact .inr (by decide)
    | 3, _, rfl => exact .inr (by decide)
    | 4, _, rfl => exact .inr (by decide)
    | 5, _, rfl => exact .inr (by decide)

end SingleAssignment
