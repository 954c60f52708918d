import Mathlib.Data.Fintype.EquivFin
import Mathlib.Data.Fintype.Sum
import SingleAssignment.Proofs.Convert.Stream
import SingleAssignment.Proofs.Flow.Renumbering

/-!
# Conversions under a map of locals

Two conversions of a program and of the program with its locals mapped take their fresh ids from
different supplies, so their ids have nothing to do with each other, and one may run out of ids when
the other does not.  As long as both succeed, an injective map takes one run to the other: it agrees
with the given map on the locals of the program, and it takes the ids that one supply hands out to
those that the other supply hands out, in turn.

* `Supply.Matches` — the map takes the ids of one supply to those of the other.
* `Supply.exists_matching` — **there is such a map.**
* `Run.Renumbered` — two runs that differ by the map only.
* `Run.tandem_convertProgram` — **two conversions that succeed differ by the map only.**
-/

namespace SingleAssignment

variable {τ : Type} {f : Local → Local}

/-! ## Two supplies -/

namespace Supply

variable {used used' : LocalSet}

/-- The supplies come to these locals in the same turn. -/
def InTurn (used used' : LocalSet) (x y : Local) : Prop :=
  Free used x.index.toNat ∧ Free used' y.index.toNat ∧
    Nat.count (Free used) x.index.toNat = Nat.count (Free used') y.index.toNat

/-- The map takes each local that one supply hands out to the local that the other supply hands out
in its turn. -/
def Matches (f : Local → Local) (used used' : LocalSet) : Prop :=
  ∀ x y, InTurn used used' x y → f x = y

/-- The supplies have handed out equally many locals. -/
def Abreast (used used' : LocalSet) (s t : Supply) : Prop :=
  ∃ k, s.HandedOut used k ∧ t.HandedOut used' k

theorem tandem_fresh (hm : Matches f used used') :
    Tandem (Abreast used used') (fun x y => y = f x) fresh fresh := by
  rintro s t ⟨k, hs, ht⟩ x s' y t' hx hy
  obtain ⟨hfree, hcount, hs'⟩ := hs.fresh hx
  obtain ⟨hfree', hcount', ht'⟩ := ht.fresh hy
  exact ⟨(hm x y ⟨hfree, hfree', hcount.trans hcount'.symm⟩).symm, k + 1, hs', ht'⟩

theorem tandem_mint (hm : Matches f used used') (n : Nat) :
    Tandem (Abreast used used') (fun xs ys => ys = xs.map f) (mint n) (mint n) := by
  induction n with
  | zero => exact .pure rfl
  | succ n ih =>
      refine (tandem_fresh hm).bind fun x y hxy => ih.bind fun xs ys hxys => .pure ?_
      rw [hxy, hxys, List.map_cons]

theorem tandem_reserve (hm : Matches f used used') (n : Nat) :
    Tandem (Abreast used used') (fun xs ys => ys = xs.map f) (reserve n) (reserve n) := by
  unfold reserve
  split
  · exact tandem_mint hm n
  · exact (Lockstep.throw (E := Fault.Any) trivial).tandem

/-! ## A map that matches two supplies -/

/-- What takes the place of `x`: its image if it is in use, else the local that the other supply
comes to in the turn of `x`. -/
noncomputable def counterpart (s : Local → Local) (used used' : LocalSet) (x : Local) : Local :=
  if x ∈ used then s x
  else ⟨.ofNat (Nat.nth (Free used') (Nat.count (Free used) x.index.toNat))⟩

theorem InTurn.counterpart_eq {x y : Local} (h : InTurn used used' x y) (s : Local → Local) :
    counterpart s used used' x = y := by
  obtain ⟨hx, hy, hcount⟩ := h
  rw [counterpart, if_neg (free_toNat.1 hx).2, hcount, Nat.nth_count hy, UInt32.ofNat_toNat]

theorem injOn_counterpart {s : Local → Local} (hs : Set.InjOn s {x | x ∈ used})
    (hmaps : ∀ x ∈ used, s x ∈ used') :
    Set.InjOn (counterpart s used used') {x | x ∈ used ∨ ∃ y, InTurn used used' x y} := by
  -- images of locals in use are in use on the other side, and ids are not
  have hapart : ∀ x z, x ∈ used → ∀ y, InTurn used used' z y →
      counterpart s used used' x ≠ counterpart s used used' z := by
    intro x z hx y hz heq
    rw [counterpart, if_pos hx, hz.counterpart_eq] at heq
    exact (free_toNat.1 hz.2.1).2 (heq ▸ hmaps x hx)
  rintro x (hx | ⟨y, hx⟩) z (hz | ⟨w, hz⟩) heq
  · rw [counterpart, if_pos hx, counterpart, if_pos hz] at heq
    exact hs hx hz heq
  · exact absurd heq (hapart x z hx w hz)
  · exact absurd heq.symm (hapart z x hz y hx)
  · rw [hx.counterpart_eq, hz.counterpart_eq] at heq
    subst heq
    exact toNat_injective (Nat.count_injective hx.1 hz.1 (hx.2.2.trans hz.2.2.symm))

/-- **A map that is injective on the locals in use extends to an injective map that takes the ids of
one supply to those of the other, in turn.** -/
theorem exists_matching {s : Local → Local} (hs : Set.InjOn s {x | x ∈ used})
    (hmaps : ∀ x ∈ used, s x ∈ used') :
    ∃ f : Local → Local, Function.Injective f ∧ (∀ x ∈ used, f x = s x) ∧
      Matches f used used' := by
  have := Fintype.ofFinite Local
  -- there are finitely many locals, so what is injective on some of them extends to all
  obtain ⟨e, he⟩ := Set.MapsTo.exists_equiv_extend_of_card_eq (t := Finset.univ)
    Finset.card_univ.symm (fun x _ => Finset.mem_coe.2 (Finset.mem_univ _))
    (injOn_counterpart hs hmaps)
  refine ⟨fun x => e x, Subtype.val_injective.comp e.injective, fun x hx => ?_, fun x y h => ?_⟩
  · refine (he x (.inl hx)).trans ?_
    rw [counterpart, if_pos hx]
  · exact (he x (.inr ⟨y, h⟩)).trans (h.counterpart_eq s)

end Supply

/-! ## Renaming and emission -/

/-- The runs differ only in that the locals of `v` are those of `u` under `f`, and in their
journals; their supplies have handed out equally many ids. -/
structure Run.Renumbered (f : Local → Local) (used used' : LocalSet) (u v : Run τ) : Prop where
  supply : Supply.Abreast used used' u.supply v.supply
  events : v.events = u.events.map (Event.mapLocals f)
  stats : v.stats = u.stats

theorem FlowGraph.Renumbered.tandem_reserve {used used' : LocalSet} {g k : FlowGraph τ}
    (hm : Supply.Matches f used used') (h : g.Renumbered f k) (ns : List Node)
    (reserved : Array (List Local)) :
    Tandem (Supply.Abreast used used') (fun a b => b = a.map (List.map f)) (g.reserve ns reserved)
      (k.reserve ns (reserved.map (List.map f))) := by
  induction ns generalizing reserved with
  | nil => exact .pure rfl
  | cons n ns ih =>
      refine (h.blockOf _ n).tandem.bind fun b c hb => ?_
      rw [hb.assignmentCount]
      refine (Supply.tandem_reserve hm _).bind fun ids ids' hids => ?_
      subst hids
      refine (lockstep_withEntry (E := Fault.Any) (A := fun a b => b = a.map (List.map f)) trivial
        Array.size_map Array.map_setIfInBounds.symm).tandem.bind fun table table' htable => ?_
      subst htable
      exact ih _

namespace Run

variable {used used' : LocalSet}

theorem tandem_report (e : Event τ) :
    Tandem (Run.Renumbered f used used') Eq (report e) (report (e.mapLocals f)) := by
  refine Lockstep.tandem (E := Fault.Any) fun u v h => .ok rfl ⟨h.supply, ?_, h.stats⟩
  simp [h.events]

theorem tandem_log (entry entry' : LogRecord) :
    Tandem (Run.Renumbered (τ := τ) f used used') Eq (log entry) (log entry') :=
  Lockstep.tandem (E := Fault.Any) fun _ _ h => .ok rfl ⟨h.supply, h.events, h.stats⟩

theorem tandem_count (c : Stats → Stats) :
    Tandem (Run.Renumbered (τ := τ) f used used') Eq (count c) (count c) :=
  Lockstep.tandem (E := Fault.Any) fun _ _ h =>
    .ok rfl ⟨h.supply, h.events, congrArg c h.stats⟩

theorem tandem_supplied {α α' : Type} {A : α → α' → Prop} {x : EStateM Fault Supply α}
    {y : EStateM Fault Supply α'} (hxy : Tandem (Supply.Abreast used used') A x y) :
    Tandem (Run.Renumbered (τ := τ) f used used') A (supplied x) (supplied y) := by
  intro u v h a u' b v' hu hv
  obtain ⟨s, hx, rfl⟩ := supplied_ok hu
  obtain ⟨t, hy, rfl⟩ := supplied_ok hv
  obtain ⟨hab, hs⟩ := hxy h.supply hx hy
  exact ⟨hab, hs, h.events, h.stats⟩

theorem tandem_reportDefinitions (ds : List (Local × Local)) :
    Tandem (Run.Renumbered (τ := τ) f used used') Eq (reportDefinitions ds)
      (reportDefinitions (ds.map (Prod.map f f))) := by
  induction ds with
  | nil => exact .pure rfl
  | cons d ds ih => exact (tandem_report (.unalias d.1 d.2)).bind fun _ _ _ => ih

theorem tandem_logAll (entries entries' : List LogRecord) :
    Tandem (Run.Renumbered (τ := τ) f used used') Eq (logAll entries) (logAll entries') := by
  intro u v h _ u' _ v' hu hv
  rw [logAll_eq] at hu hv
  cases hu
  cases hv
  exact ⟨rfl, h.supply, h.events, h.stats⟩

theorem tandem_reportRenaming (order : List Node)
    {x y : EStateM.Result Fault (FlowGraph τ) (Array (List (Local × Local)))}
    (h : Paired Fault.Any (FlowGraph.Renumbered f)
      (fun ds ds' => ds' = ds.map (List.map (Prod.map f f))) x y) :
    Tandem (Run.Renumbered f used used') (FlowGraph.Renumbered f) (reportRenaming order x)
      (reportRenaming order y) := by
  cases h with
  | error he _ => exact (Lockstep.throw he).tandem
  | @ok ds _ g k hds hg =>
      subst hds
      have hall : order.flatMap ((ds.map (List.map (Prod.map f f))).getD · []) =
          (order.flatMap (ds.getD · [])).map (Prod.map f f) := by
        rw [List.map_flatMap]
        congr 1
        funext n
        rw [Array.getD_eq_getD_getElem?, Array.getD_eq_getD_getElem?, Array.getElem?_map]
        cases ds[n]? <;> rfl
      unfold reportRenaming
      simp only [hall, List.length_map]
      exact (tandem_reportDefinitions _).bind fun _ _ _ => (tandem_log _ _).bind fun _ _ _ =>
        (tandem_count _).bind fun _ _ _ => .pure hg

section Block

variable {g k : FlowGraph τ}

theorem tandem_renameBlocks (hf : Function.Injective f) (hm : Supply.Matches f used used')
    (h : g.Renumbered f k) {p q : Program τ} (hg : FlowGraph.ofProgram p = .ok g)
    (hk : FlowGraph.ofProgram q = .ok k) (schedule schedule' : Schedule) :
    Tandem (Run.Renumbered f used used') (FlowGraph.Renumbered f) (renameBlocks g schedule)
      (renameBlocks k schedule') := by
  rw [renameBlocks_eq hg, renameBlocks_eq hk, h.order, h.blockCount]
  have hreserve := h.tandem_reserve hm g.order.toList (Array.replicate g.blockCount [])
  rw [Array.map_replicate] at hreserve
  refine (tandem_supplied hreserve).bind fun reserved _ heq => ?_
  subst heq
  have hnote : Tandem (Run.Renumbered (τ := τ) f used used') Eq
      (noteParallel schedule.isParallel g.blockCount)
      (noteParallel schedule'.isParallel g.blockCount) := by
    refine Lockstep.tandem (E := Fault.Any) fun u v huv => ?_
    cases schedule.isParallel <;> cases schedule'.isParallel <;>
      exact .ok rfl ⟨huv.supply, huv.events, huv.stats⟩
  refine hnote.bind fun _ _ _ => tandem_reportRenaming _ ?_
  have hpair := FlowGraph.lockstep_renameAlong_renumbered hf reserved (List.range g.blockCount)
    (Array.replicate g.blockCount []) h
  rw [Array.map_replicate] at hpair
  exact hpair

variable (n : Node) {b c : Block τ}

theorem tandem_resolveImport (hm : Supply.Matches f used used') (h : g.Renumbered f k)
    (offset : Offset) (x : Local) :
    Tandem (Run.Renumbered f used used') (fun y y' => y' = f y) (resolveImport g n offset x)
      (resolveImport k n offset (f x)) := by
  refine (Lockstep.ofExcept (h.reachingDefinitions n x)).tandem.bind fun cs cs' hcs => ?_
  subst hcs
  match cs with
  | [] => exact (tandem_count _).bind fun _ _ _ => .pure rfl
  | [c] => exact .pure rfl
  | c :: d :: cs =>
      refine (tandem_supplied (Supply.tandem_fresh hm)).bind fun result _ heq => ?_
      subst heq
      exact (tandem_report (.unalias result x)).bind fun _ _ _ =>
        (tandem_log _ _).bind fun _ _ _ =>
        (tandem_report (.phi ⟨offset, result, x, c :: d :: cs⟩)).bind fun _ _ _ =>
        (tandem_count _).bind fun _ _ _ => .pure rfl

theorem tandem_noteUnresolved (offset : Offset) (x y x' y' : Local) :
    Tandem (Run.Renumbered f used used') Eq (noteUnresolved b offset x y)
      (noteUnresolved c offset x' y') := by
  refine Lockstep.tandem (E := Fault.Any) fun u v huv => ?_
  unfold noteUnresolved
  split <;> split <;> exact .ok rfl ⟨huv.supply, huv.events, huv.stats⟩

theorem tandem_resolveOperand (hf : Function.Injective f) (hm : Supply.Matches f used used')
    (h : g.Renumbered f k) (hb : b.Renumbered f c) (offset : Offset) {m m' : LocalMap}
    (hmap : LocalMap.Renumbered f m m') (x : Local) :
    Tandem (Run.Renumbered f used used')
      (fun a a' => a'.1 = f a.1 ∧ LocalMap.Renumbered f a.2 a'.2)
      (resolveOperand g n b offset m x) (resolveOperand k n c offset m' (f x)) := by
  unfold resolveOperand
  rw [hb.imports x, hmap x]
  split
  · cases m[x]? with
    | some y => exact .pure ⟨rfl, hmap⟩
    | none =>
        refine (tandem_resolveImport n hm h offset x).bind fun y _ heq => ?_
        subst heq
        exact (tandem_noteUnresolved offset _ _ _ _).bind fun _ _ _ =>
          .pure ⟨rfl, hmap.insert hf x y⟩
  · exact .pure ⟨rfl, hmap⟩

theorem tandem_resolveOperands (hf : Function.Injective f) (hm : Supply.Matches f used used')
    (h : g.Renumbered f k) (hb : b.Renumbered f c) (offset : Offset) {m m' : LocalMap}
    (hmap : LocalMap.Renumbered f m m') (xs : List Local) :
    Tandem (Run.Renumbered f used used')
      (fun a a' => a'.1 = a.1.map f ∧ LocalMap.Renumbered f a.2 a'.2)
      (resolveOperands g n b offset m xs) (resolveOperands k n c offset m' (xs.map f)) := by
  induction xs generalizing m m' with
  | nil => exact .pure ⟨rfl, hmap⟩
  | cons x xs ih =>
      refine (tandem_resolveOperand n hf hm h hb offset hmap x).bind fun y y' hy => ?_
      refine (ih hy.2).bind fun ys ys' hys => .pure ⟨?_, hys.2⟩
      rw [hy.1, hys.1, List.map_cons]

theorem tandem_emitInstructions (hf : Function.Injective f) (hm : Supply.Matches f used used')
    (h : g.Renumbered f k) (hb : b.Renumbered f c) {m m' : LocalMap}
    (hmap : LocalMap.Renumbered f m m') (is : List (Instruction τ)) :
    Tandem (Run.Renumbered f used used') Eq (emitInstructions g n b m is)
      (emitInstructions k n c m' (is.map (Instruction.mapLocals f))) := by
  induction is generalizing m m' with
  | nil => exact .pure rfl
  | cons i is ih =>
      rw [List.map_cons]
      refine (tandem_resolveOperands n hf hm h hb i.offset hmap i.operands).bind
        fun ys ys' hys => ?_
      obtain ⟨operands, m₁⟩ := ys
      obtain ⟨_, m₁'⟩ := ys'
      obtain ⟨rfl, hmap⟩ := hys
      rw [i.kind_mapLocals]
      exact (tandem_count _).bind fun _ _ _ =>
        (tandem_report (.instruction { i with operands })).bind fun _ _ _ => ih hmap

theorem tandem_emitBlocks (hf : Function.Injective f) (hm : Supply.Matches f used used')
    (h : g.Renumbered f k) (ns : List Node) :
    Tandem (Run.Renumbered f used used') Eq (emitBlocks g ns) (emitBlocks k ns) := by
  induction ns with
  | nil => exact .pure rfl
  | cons n ns ih =>
      refine (h.blockOf _ n).tandem.bind fun b c hb => ?_
      rw [hb.instructions, Array.toList_map]
      exact (tandem_emitInstructions n hf hm h hb .empty _).bind fun _ _ _ => ih

end Block

/-! ## The whole conversion -/

theorem tandem_checkDangling (config config' : Config) (g k : FlowGraph τ) :
    Tandem (Run.Renumbered f used used') Eq (checkDangling config g) (checkDangling config' k) := by
  intro u v h _ u' _ v' hu hv
  cases checkDangling_ok hu
  cases checkDangling_ok hv
  exact ⟨rfl, h⟩

/-- **Two conversions that succeed differ by the map only.** -/
theorem tandem_convertProgram (hf : Function.Injective f) (hm : Supply.Matches f used used')
    (config config' : Config) (schedule schedule' : Schedule) (p : Program τ) :
    Tandem (Run.Renumbered f used used') Eq (convertProgram config schedule p)
      (convertProgram config' schedule' (p.mapLocals f)) := by
  refine (Lockstep.ofExcept (FlowGraph.ofProgram_mapLocals f p).answers).tandem.bind
    fun g k hgraph => ?_
  obtain ⟨⟨hmapped, hg⟩, hbuilt, hbuilt'⟩ := hgraph
  refine (tandem_logAll _ _).bind fun _ _ _ =>
    (tandem_checkDangling config config' g k).bind fun _ _ _ => ?_
  have hcounts : (fun s : Stats => { s with
      blocks := k.blockCount
      reachedBlocks := k.reachedCount
      danglingTargets := k.dangling.size }) = fun s => { s with
      blocks := g.blockCount
      reachedBlocks := g.reachedCount
      danglingTargets := g.dangling.size } := by
    funext s
    rw [hg.blockCount, hmapped.dangling, Array.size_map, FlowGraph.reachedCount, hg.order]
    rfl
  rw [hcounts]
  refine (tandem_count _).bind fun _ _ _ =>
    (tandem_renameBlocks hf hm hg hbuilt hbuilt' _ _).bind fun g' k' hg' => ?_
  rw [hg'.order]
  refine (tandem_emitBlocks hf hm hg' _).bind fun _ _ _ =>
    (Lockstep.get (E := Fault.Any)).tandem.bind fun u v huv => ?_
  exact (tandem_log _ _).bind fun _ _ _ => .pure huv.stats.symm

end Run

end SingleAssignment
