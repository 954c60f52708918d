import SingleAssignment.Proofs.Convert.Record
import SingleAssignment.Proofs.Convert.Renumbering

/-!
# Locals are names

Which number a local has does not matter to a conversion, as long as different locals stay
different.  It does matter to the supply, which steps over the numbers in use; so the fresh ids of
two conversions differ, and each takes the place of the other that was minted in its turn.
-/

namespace SingleAssignment

variable {τ : Type}

/-- The fresh ids of mapped events, with what they stand for. -/
theorem Recorder.unaliases_mapLocals {r r' : Recorder τ} {f : Local → Local}
    (h : r'.events = r.events.map (Event.mapLocals f)) :
    r'.unaliases = r.unaliases.map (Prod.map f f) := by
  unfold unaliases
  rw [h, Array.toList_map, List.filterMap_map, List.map_filterMap]
  congr 1
  funext e
  cases e <;> rfl

/-- **Locals are only names.**  Let `s` keep the locals of a program apart, and let both the program
and the program with its locals mapped by `s` convert.  The statistics are the same, and a map `f`
of locals takes the one stream of events to the other: `f` is `s` on the locals of the program, and
it takes the fresh id that one conversion mints at place `k` to the one that the other mints at
place `k`.  Offsets, tags and the order of events, operands and contributors stay as they are. -/
theorem convert_mapLocals {config config' : Config} {schedule schedule' : Schedule} {p : Program τ}
    {s : Local → Local} {stats stats' : Stats} (hs : Set.InjOn s {x | x ∈ p.locals})
    (h : (convert config schedule p).outcome = .ok stats)
    (h' : (convert config' schedule' (p.mapLocals s)).outcome = .ok stats') :
    stats' = stats ∧ ∃ f : Local → Local, Function.Injective f ∧ (∀ x ∈ p.locals, f x = s x) ∧
      (∀ (k : Nat) (u u' : Local × Local),
        (convert config schedule p).recorded.unaliases[k]? = some u →
        (convert config' schedule' (p.mapLocals s)).recorded.unaliases[k]? = some u' →
          u'.1 = f u.1) ∧
      (convert config' schedule' (p.mapLocals s)).events =
        (convert config schedule p).events.map (Event.mapLocals f) := by
  obtain ⟨f, hf, hext, hmatch⟩ := Supply.exists_matching hs fun x hx =>
    (Program.mem_locals_mapLocals (p := p)).2 ⟨x, hx, rfl⟩
  have htandem := Run.tandem_convertProgram hf hmatch config config' schedule schedule' p
  rw [Program.mapLocals_congr hext] at htandem
  have hstart : Run.Renumbered (τ := τ) f p.locals (p.mapLocals s).locals
      { supply := .ofUsed p.locals } { supply := .ofUsed (p.mapLocals s).locals } :=
    ⟨⟨0, Supply.handedOut_ofUsed _, Supply.handedOut_ofUsed _⟩, by simp, rfl⟩
  obtain ⟨r, hrun, hconvert⟩ := convert_eq_ok h
  obtain ⟨r', hrun', hconvert'⟩ := convert_eq_ok h'
  obtain ⟨hstats, hpair⟩ := htandem hstart hrun hrun'
  have hevents : (convert config' schedule' (p.mapLocals s)).events =
      (convert config schedule p).events.map (Event.mapLocals f) := by
    rw [hconvert, hconvert']
    exact hpair.events
  refine ⟨hstats.symm, f, hf, hext, fun k u u' hu hu' => ?_, hevents⟩
  rw [Recorder.unaliases_mapLocals (r := (convert config schedule p).recorded) (by simpa),
    List.getElem?_map, hu] at hu'
  cases hu'
  rfl

/-- The local whose number is four higher. -/
def Local.raised (x : Local) : Local := ⟨x.index + 4⟩

/-- The counting loop with its locals 5 and 1 numbered 9 and 5: the phi, which was the local 4, is
now the local 3. -/
theorem countingLoop_mapLocals :
    Set.InjOn Local.raised {x | x ∈ countingLoop.locals} ∧
    ∃ f : Local → Local, f ⟨5⟩ = ⟨9⟩ ∧ f ⟨4⟩ = ⟨3⟩ ∧
      (convert {} .sequential (countingLoop.mapLocals Local.raised)).events =
        (convert {} .sequential countingLoop).events.map (Event.mapLocals f) := by
  have hs : Set.InjOn Local.raised {x | x ∈ countingLoop.locals} := by
    rintro ⟨x⟩ - ⟨y⟩ - heq
    simpa [Local.raised] using heq
  have hok : (convert {} .sequential (countingLoop.mapLocals Local.raised)).outcome = .ok
      { blocks := 2, reachedBlocks := 2, definitions := 2, phis := 1, unresolvedImports := 1,
        assignments := 2, branches := 1 } := by
    cbv
  obtain ⟨-, f, -, hext, hturn, hevents⟩ := convert_mapLocals hs convert_countingLoop hok
  refine ⟨hs, f, hext ⟨5⟩ (by decide), (hturn 2 (⟨4⟩, ⟨5⟩) (⟨3⟩, ⟨9⟩) ?_ ?_).symm, hevents⟩
  · cbv
  · cbv

end SingleAssignment
