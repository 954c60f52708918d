import SingleAssignment.Code.Program
import SingleAssignment.Convert.Event

/-!
# Replacing locals

A map of locals acts on everything that mentions locals: instructions, programs, phis and events.
Offsets, tags and the order of operands and contributors stay as they are.

* `Instruction.mapLocals`, `Program.mapLocals`, `Event.mapLocals` — every local replaced.
* `Program.mem_locals_mapLocals` — the locals of the new program are the images of the old ones.
-/

namespace SingleAssignment

variable {τ : Type} {f s : Local → Local}

/-- The action with its destination replaced. -/
def Action.mapDestination (f : Local → Local) : Action → Action
  | .assign d => .assign (f d)
  | .effect => .effect
  | .branch c t => .branch c t

/-- The instruction with every local replaced. -/
def Instruction.mapLocals (f : Local → Local) (i : Instruction τ) : Instruction τ :=
  { i with operands := i.operands.map f, action := i.action.mapDestination f }

/-- The program with every local replaced. -/
def Program.mapLocals (f : Local → Local) (p : Program τ) : Program τ :=
  .ofList (p.instructions.toList.map (Instruction.mapLocals f))

/-- The contributor with its value replaced. -/
def Contributor.mapLocals (f : Local → Local) (c : Contributor) : Contributor :=
  { c with value := f c.value }

/-- The phi with every local replaced. -/
def Phi.mapLocals (f : Local → Local) (φ : Phi) : Phi :=
  { φ with
    result := f φ.result
    origin := f φ.origin
    contributors := φ.contributors.map (Contributor.mapLocals f) }

/-- The event with every local replaced. -/
def Event.mapLocals (f : Local → Local) : Event τ → Event τ
  | .unalias fresh origin => .unalias (f fresh) (f origin)
  | .phi φ => .phi (φ.mapLocals f)
  | .instruction i => .instruction (i.mapLocals f)

namespace Instruction

@[simp] theorem branch?_mapLocals (i : Instruction τ) : (i.mapLocals f).branch? = i.branch? := by
  unfold branch? mapLocals
  cases i.action <;> rfl

@[simp] theorem destination?_mapLocals (i : Instruction τ) :
    (i.mapLocals f).destination? = i.destination?.map f := by
  unfold destination? mapLocals
  cases i.action <;> rfl

@[simp] theorem kind_mapLocals (i : Instruction τ) : (i.mapLocals f).kind = i.kind := by
  unfold kind mapLocals
  cases i.action <;> rfl

theorem locals_mapLocals (i : Instruction τ) : (i.mapLocals f).locals = i.locals.map f := by
  unfold locals
  rw [destination?_mapLocals, List.map_append]
  cases i.destination? <;> rfl

theorem mapLocals_congr {i : Instruction τ} (h : ∀ x ∈ i.locals, f x = s x) :
    i.mapLocals f = i.mapLocals s := by
  obtain ⟨offset, tag, operands, action⟩ := i
  have hoperands : operands.map f = operands.map s :=
    List.map_congr_left fun x hx => h x (List.mem_append_right _ hx)
  have haction : action.mapDestination f = action.mapDestination s := by
    cases action with
    | assign x => exact congrArg Action.assign (h x (List.mem_append_left _ List.mem_cons_self))
    | effect => rfl
    | branch c t => rfl
  simp [mapLocals, hoperands, haction]

end Instruction

namespace Program

theorem mem_locals_mapLocals {p : Program τ} {y : Local} :
    y ∈ (p.mapLocals f).locals ↔ ∃ x ∈ p.locals, f x = y := by
  simp only [mem_locals, mapLocals, instructions_ofList, List.mem_map]
  constructor
  · rintro ⟨_, ⟨i, hi, rfl⟩, hy⟩
    rw [Instruction.locals_mapLocals, List.mem_map] at hy
    obtain ⟨x, hx, rfl⟩ := hy
    exact ⟨x, ⟨i, hi, hx⟩, rfl⟩
  · rintro ⟨x, ⟨i, hi, hx⟩, rfl⟩
    refine ⟨i.mapLocals f, ⟨i, hi, rfl⟩, ?_⟩
    rw [Instruction.locals_mapLocals]
    exact List.mem_map_of_mem hx

theorem mapLocals_congr {p : Program τ} (h : ∀ x ∈ p.locals, f x = s x) :
    p.mapLocals f = p.mapLocals s := by
  unfold mapLocals
  congr 1
  refine List.map_congr_left fun i hi => Instruction.mapLocals_congr fun x hx => h x ?_
  exact mem_locals.2 ⟨i, hi, hx⟩

end Program

end SingleAssignment
