import SingleAssignment.Code.Instruction

/-!
# Programs

A program is the sequence of its instructions in the order of emission.  Emission checks nothing, but
it registers what an instruction mentions, so a program carries two sets along:

* `Program.locals` — every local that is written or read.
* `Program.labels` — every offset that is the target of a branch.

The sets grow with each instruction, and a program holds the proof that they are the ones read off
its instructions.  So a program is known by its instructions (`Program.ext_instructions`).
-/

namespace SingleAssignment

/-- The offset that a branch leads to. -/
def Instruction.target? {τ : Type} (i : Instruction τ) : Option Offset := i.branch?.map (·.2)

/-- Instructions in the order of emission, with the locals and labels registered on the way. -/
structure Program (τ : Type) where
  instructions : Array (Instruction τ)
  locals : LocalSet
  labels : Std.TreeSet Offset
  locals_eq : locals = .ofList (instructions.toList.flatMap Instruction.locals)
  labels_eq : labels = .ofList (instructions.toList.filterMap Instruction.target?)

namespace Program

variable {τ : Type}

/-- The program without instructions. -/
def empty : Program τ where
  instructions := #[]
  locals := ∅
  labels := ∅
  locals_eq := Std.TreeSet.ofList_nil.symm
  labels_eq := Std.TreeSet.ofList_nil.symm

/-- The locals of an instruction registered: its destination, then its operands. -/
def register (known : LocalSet) (i : Instruction τ) : LocalSet :=
  match i.destination? with
  | some x => (known.insert x).insertMany i.operands
  | none => known.insertMany i.operands

/-- The target of a branch registered. -/
def registerTarget (known : Std.TreeSet Offset) (i : Instruction τ) : Std.TreeSet Offset :=
  match i.target? with
  | some target => known.insert target
  | none => known

theorem register_ofList (xs : List Local) (i : Instruction τ) :
    register (.ofList xs) i = .ofList (xs ++ i.locals) := by
  rw [register, Instruction.locals, Std.TreeSet.ofList_eq_insertMany_empty,
    Std.TreeSet.ofList_eq_insertMany_empty, Std.TreeSet.insertMany_append,
    Std.TreeSet.insertMany_append]
  cases i.destination? with
  | some x => simp [Std.TreeSet.insertMany_cons]
  | none => simp

theorem registerTarget_ofList (os : List Offset) (i : Instruction τ) :
    registerTarget (.ofList os) i = .ofList (os ++ i.target?.toList) := by
  rw [registerTarget, Std.TreeSet.ofList_eq_insertMany_empty,
    Std.TreeSet.ofList_eq_insertMany_empty, Std.TreeSet.insertMany_append]
  cases i.target? with
  | some target => simp
  | none => simp

/-- The program with one more instruction at its end. -/
def emit (p : Program τ) (i : Instruction τ) : Program τ where
  instructions := p.instructions.push i
  locals := register p.locals i
  labels := registerTarget p.labels i
  locals_eq := by
    rw [p.locals_eq, register_ofList, Array.toList_push, List.flatMap_append, List.flatMap_singleton]
  labels_eq := by
    rw [p.labels_eq, registerTarget_ofList, Array.toList_push, List.filterMap_append]
    rfl

/-- The program of a list of instructions, emitted one after the other. -/
def ofList (is : List (Instruction τ)) : Program τ := is.foldl emit empty

/-- Number of instructions. -/
def size (p : Program τ) : Nat := p.instructions.size

/-- Whether nothing has been emitted. -/
def isEmpty (p : Program τ) : Bool := p.instructions.isEmpty

/-- Offset of the first instruction. -/
def entry? (p : Program τ) : Option Offset := p.instructions[0]?.map (·.offset)

/-- **A program is known by its instructions.** -/
theorem ext_instructions {p q : Program τ} (h : p.instructions = q.instructions) : p = q := by
  obtain ⟨is, locals, labels, hlocals, hlabels⟩ := p
  obtain ⟨js, locals', labels', hlocals', hlabels'⟩ := q
  obtain rfl : is = js := h
  subst hlocals hlabels hlocals' hlabels'
  rfl

@[simp] theorem toList_emit (p : Program τ) (i : Instruction τ) :
    (p.emit i).instructions.toList = p.instructions.toList ++ [i] :=
  Array.toList_push

theorem ofList_append (is js : List (Instruction τ)) :
    ofList (is ++ js) = js.foldl emit (ofList is) :=
  List.foldl_append

@[simp] theorem instructions_ofList (is : List (Instruction τ)) :
    (ofList is).instructions = is.toArray := by
  have hfold : ∀ (p : Program τ) (js : List (Instruction τ)),
      (js.foldl emit p).instructions.toList = p.instructions.toList ++ js := by
    intro p js
    induction js generalizing p with
    | nil => simp
    | cons j js ih => rw [List.foldl_cons, ih, toList_emit, List.append_assoc]; rfl
  exact Array.toList_inj.1 (hfold empty is)

theorem mem_locals {p : Program τ} {x : Local} :
    x ∈ p.locals ↔ ∃ i ∈ p.instructions.toList, x ∈ i.locals := by
  rw [p.locals_eq, Std.TreeSet.mem_ofList, List.contains_iff_mem, List.mem_flatMap]

theorem mem_labels {p : Program τ} {o : Offset} :
    o ∈ p.labels ↔ ∃ i ∈ p.instructions.toList, ∃ c, i.branch? = some (c, o) := by
  rw [p.labels_eq, Std.TreeSet.mem_ofList, List.contains_iff_mem, List.mem_filterMap]
  simp [Instruction.target?]

end Program

end SingleAssignment
