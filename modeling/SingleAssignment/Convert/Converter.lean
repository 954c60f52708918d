import SingleAssignment.Convert.Conversion

/-!
# Conversion in batches

A converter collects instructions and converts everything collected so far on request.  The batch is
gone afterwards, whether its conversion succeeds or not; the configuration stays.
-/

namespace SingleAssignment

/-- A configuration and the instructions that wait for conversion. -/
structure Converter (τ : Type) where
  config : Config := {}
  pending : Program τ := .empty

namespace Converter

variable {τ σ : Type}

/-- The converter with nothing pending. -/
def ofConfig (config : Config) : Converter τ := { config }

/-- Collect one instruction. -/
def emit (c : Converter τ) (i : Instruction τ) : Converter τ :=
  { c with pending := c.pending.emit i }

/-- Number of pending instructions. -/
def size (c : Converter τ) : Nat := c.pending.size

/-- Whether nothing is pending. -/
def isEmpty (c : Converter τ) : Bool := c.pending.isEmpty

/-- Convert the pending instructions. -/
def process (c : Converter τ) (schedule : Schedule) : Conversion τ × Converter τ :=
  (convert c.config schedule c.pending, { c with pending := .empty })

/-- Convert the pending instructions and send the events to a sink. -/
def processInto (c : Converter τ) (schedule : Schedule) (sink : Sink τ σ) (s : σ) :
    Conversion τ × σ × Converter τ :=
  let (result, c) := c.process schedule
  (result, sink.receiveAll s result.events, c)

end Converter

end SingleAssignment
