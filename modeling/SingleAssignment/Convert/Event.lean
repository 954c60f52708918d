import SingleAssignment.Code.Instruction
import SingleAssignment.Phi

/-!
# Events

A conversion reports its result as a stream of events: which local a fresh id stands for, where
definitions merge, and the instructions in their new form.

* `Recorder` — keeps every event in order.
* `Sink` — any way to receive events one by one; `Sink.recorder` keeps them, `Sink.discard` drops
  them.
-/

namespace SingleAssignment

/-- One event of a conversion. -/
inductive Event (τ : Type) where
  /-- The id `fresh` stands for the local `origin`. -/
  | unalias (fresh origin : Local)
  /-- Definitions merge. -/
  | phi (phi : Phi)
  /-- The next instruction in its new form. -/
  | instruction (i : Instruction τ)
  deriving DecidableEq, Repr

/-- The events received so far, oldest first. -/
structure Recorder (τ : Type) where
  events : Array (Event τ) := #[]
  deriving DecidableEq, Repr

namespace Recorder

variable {τ : Type}

/-- The recorder that has received nothing. -/
def empty : Recorder τ := {}

/-- Receive one event. -/
def receive (r : Recorder τ) (e : Event τ) : Recorder τ := { r with events := r.events.push e }

/-- Number of events. -/
def size (r : Recorder τ) : Nat := r.events.size

/-- The recorded instructions. -/
def instructions (r : Recorder τ) : List (Instruction τ) :=
  r.events.toList.filterMap fun
    | .instruction i => some i
    | _ => none

/-- The recorded phis. -/
def phis (r : Recorder τ) : List Phi :=
  r.events.toList.filterMap fun
    | .phi p => some p
    | _ => none

/-- What each fresh id stands for; the last event about an id counts. -/
def origins (r : Recorder τ) : LocalMap :=
  r.events.foldl (fun m e => match e with
    | .unalias fresh origin => m.insert fresh origin
    | _ => m) ∅

end Recorder

/-- A receiver of events with a state of its own. -/
structure Sink (τ σ : Type) where
  receive : σ → Event τ → σ

namespace Sink

variable {τ σ : Type}

/-- Keep every event. -/
def recorder : Sink τ (Recorder τ) := ⟨Recorder.receive⟩

/-- Drop every event. -/
def discard : Sink τ Unit := ⟨fun _ _ => ()⟩

/-- Receive a stream of events in order. -/
def receiveAll (k : Sink τ σ) (s : σ) (events : Array (Event τ)) : σ := events.foldl k.receive s

theorem events_receiveAll_recorder (r : Recorder τ) (events : Array (Event τ)) :
    (recorder.receiveAll r events).events = r.events ++ events := by
  unfold receiveAll recorder
  rw [← Array.foldl_toList]
  apply Array.ext'
  rw [Array.toList_append]
  generalize events.toList = l
  induction l generalizing r with
  | nil => simp
  | cons e l ih => rw [List.foldl_cons, ih]; simp [Recorder.receive]

end Sink

end SingleAssignment
