import Mathlib.Data.List.DropRight
import SingleAssignment.Convert.Converter
import SingleAssignment.Proofs.Convert.Relabeling

/-!
# Batches of one converter

A session is any sequence of calls on one converter: instructions are emitted, and from time to time
a batch is converted, with its events kept in one recorder or dropped.  Nothing of a batch is left
for the next one but what the recorder has received.

* `Session.after`, `sinceProcess` — the session after a history of calls, and the instructions that
  are pending then.
* `convertOnto` — a conversion whose recorder receives each event when it is reported.
* `convertOnto_eq` — **a recorder with earlier contents makes no difference to a conversion, which
  only appends to it.**
* `batches_do_not_interfere` — **every batch is converted as a program of its own.**
-/

namespace SingleAssignment

variable {τ : Type}

/-! ## A recorder with earlier contents -/

/-- Convert a program with a recorder that receives each event when it is reported. -/
def convertOnto (config : Config) (schedule : Schedule) (p : Program τ) (recorder : Recorder τ) :
    Except Fault Stats × Recorder τ :=
  match Run.convertProgram config schedule p
      { supply := .ofUsed p.locals, events := recorder.events } with
  | .ok stats r => (.ok stats, ⟨r.events⟩)
  | .error e r => (.error e, ⟨r.events⟩)

/-- **A recorder with earlier contents makes no difference to a conversion, which only appends to
it**, also when it fails. -/
theorem convertOnto_eq (config : Config) (schedule : Schedule) (p : Program τ)
    (recorder : Recorder τ) :
    convertOnto config schedule p recorder =
      ((convert config schedule p).outcome,
        ⟨recorder.events ++ (convert config schedule p).events⟩) := by
  have hstart : Run.Relabeled id recorder.events { supply := .ofUsed p.locals }
      { supply := .ofUsed (p.mapOffsets id).locals, events := recorder.events } :=
    ⟨by rw [p.locals_mapOffsets], by simp, rfl⟩
  have hreject : config.rejectDangling = config.rejectDangling := rfl
  have hpair :=
    Run.lockstep_convertProgram hreject schedule schedule (Set.injOn_id p.offsets) hstart
  rw [p.mapOffsets_id] at hpair
  unfold convertOnto convert
  generalize Run.convertProgram config schedule p { supply := .ofUsed p.locals } = x at hpair ⊢
  generalize Run.convertProgram config schedule p _ = y at hpair ⊢
  have hid : Event.mapOffsets (τ := τ) id = id := funext Event.mapOffsets_id
  cases hpair with
  | ok hstats hrun =>
      subst hstats
      simp [hrun.events, hid]
  | error he hrun =>
      subst he
      simp [hrun.events, hid, Fault.mapOffsets_id]

/-! ## Sessions -/

/-- Where the events of a batch go. -/
inductive Target where
  | recorder
  | discard
  deriving DecidableEq, Repr

/-- What the recorder receives of a stream of events. -/
def Target.received : Target → Array (Event τ) → Array (Event τ)
  | .recorder, events => events
  | .discard, _ => #[]

/-- One call on a converter. -/
inductive Call (τ : Type) where
  | emit (i : Instruction τ)
  | process (schedule : Schedule) (target : Target)

/-- The instruction that a call emits. -/
def Call.instruction? : Call τ → Option (Instruction τ)
  | .emit i => some i
  | .process _ _ => none

/-- A converter and the recorder of its batches. -/
structure Session (τ : Type) where
  converter : Converter τ
  recorder : Recorder τ

namespace Session

/-- A new converter, and a recorder that may hold events of other origin. -/
def start (config : Config) (recorder : Recorder τ) : Session τ := ⟨.ofConfig config, recorder⟩

/-- One call; the answer is the outcome of a batch. -/
def call (s : Session τ) : Call τ → Option (Except Fault Stats) × Session τ
  | .emit i => (none, { s with converter := s.converter.emit i })
  | .process schedule .recorder =>
      let (result, recorder, converter) := s.converter.processInto schedule .recorder s.recorder
      (some result.outcome, ⟨converter, recorder⟩)
  | .process schedule .discard =>
      let (result, (), converter) := s.converter.processInto schedule .discard ()
      (some result.outcome, { s with converter })

/-- The session after a history of calls. -/
def after (s : Session τ) (calls : List (Call τ)) : Session τ :=
  calls.foldl (fun s c => (s.call c).2) s

end Session

/-- The instructions that a history of calls has emitted since it last converted a batch. -/
def sinceProcess (calls : List (Call τ)) : List (Instruction τ) :=
  (calls.rtakeWhile (·.instruction?.isSome)).filterMap Call.instruction?

theorem sinceProcess_emit (calls : List (Call τ)) (i : Instruction τ) :
    sinceProcess (calls ++ [.emit i]) = sinceProcess calls ++ [i] := by
  unfold sinceProcess
  rw [List.rtakeWhile_concat_pos _ _ _ rfl, List.filterMap_append]
  rfl

theorem sinceProcess_process (calls : List (Call τ)) (schedule : Schedule) (target : Target) :
    sinceProcess (calls ++ [.process schedule target]) = [] := by
  unfold sinceProcess
  rw [List.rtakeWhile_concat_neg _ _ _ (by simp [Call.instruction?])]
  rfl

namespace Session

/-- **What a batch does to a session**, whether its conversion succeeds or not. -/
theorem call_process (s : Session τ) (schedule : Schedule) (target : Target) :
    s.call (.process schedule target) =
      (some (convert s.converter.config schedule s.converter.pending).outcome,
        ⟨.ofConfig s.converter.config, ⟨s.recorder.events ++
          target.received (convert s.converter.config schedule s.converter.pending).events⟩⟩) := by
  cases target with
  | recorder =>
      rw [Target.received, ← Sink.events_receiveAll_recorder]
      rfl
  | discard =>
      rw [Target.received, Array.append_empty]
      rfl

theorem after_concat (s : Session τ) (calls : List (Call τ)) (c : Call τ) :
    s.after (calls ++ [c]) = ((s.after calls).call c).2 := by
  simp [after]

/-- **After every history the converter holds its configuration and what was emitted since the last
batch.** -/
theorem converter_after (config : Config) (recorder : Recorder τ) (calls : List (Call τ)) :
    ((start config recorder).after calls).converter =
      { config, pending := .ofList (sinceProcess calls) } := by
  induction calls using List.reverseRecOn with
  | nil => rfl
  | append_singleton calls c ih =>
      rw [after_concat]
      cases c with
      | emit i =>
          rw [sinceProcess_emit]
          simp [call, ih, Converter.emit, Program.ofList_append]
      | process schedule target =>
          rw [sinceProcess_process, call_process, ih]
          rfl

end Session

/-- **Every batch is converted as a program of its own.**  After any history of calls on a converter,
among them batches that failed, a batch ends as the sequential conversion of the instructions emitted
since the last one ends on its own, wherever its events go and in whatever order threads come to its
blocks.  The recorder receives exactly the events of that conversion behind what it held, up to the
fault if there is one, be it at the end or one by one.  Behind the batch nothing is pending and the
configuration is the same; emitting an instruction changes nothing else. -/
theorem batches_do_not_interfere (config : Config) (recorder : Recorder τ)
    (calls : List (Call τ)) (schedule : Schedule) (target : Target) :
    let s := (Session.start config recorder).after calls
    let batch := convert config .sequential (.ofList (sinceProcess calls))
    s.call (.process schedule target) =
        (some batch.outcome,
          ⟨.ofConfig config, ⟨s.recorder.events ++ target.received batch.events⟩⟩) ∧
      convertOnto config schedule (.ofList (sinceProcess calls)) s.recorder =
        (batch.outcome, ⟨s.recorder.events ++ batch.events⟩) ∧
      ∀ i, s.call (.emit i) =
        (none, ⟨{ config, pending := .ofList (sinceProcess calls ++ [i]) }, s.recorder⟩) := by
  intro s batch
  have hconverter : s.converter = { config, pending := .ofList (sinceProcess calls) } :=
    Session.converter_after config recorder calls
  obtain ⟨houtcome, hevents⟩ : (convert config schedule (.ofList (sinceProcess calls))).outcome =
      batch.outcome ∧ (convert config schedule (.ofList (sinceProcess calls))).events =
        batch.events :=
    convert_outcome_agree config config .sequential schedule _ rfl
  refine ⟨?_, ?_, fun i => ?_⟩
  · rw [Session.call_process, hconverter, houtcome, hevents]
  · rw [convertOnto_eq, houtcome, hevents]
  · simp [Session.call, hconverter, Converter.emit, Program.ofList_append]

end SingleAssignment
