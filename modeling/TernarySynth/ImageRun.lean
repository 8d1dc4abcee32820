import TernarySynth.ByteStream

/-!
# Running an image

An `Execution` is a machine over a full image together with the number of
phases it has completed. Since every cell is decided, a request for a decision
can only come from an address outside the image and is a fault. `run` goes on
until the program exits or fails; its bound on the number of phases exists
because a program need not do either.
-/

namespace TernarySynth.ImageRun

open TritWord MemoryImage TernarySynth.Cycle

/-- A machine that runs an image. -/
structure Execution where
  /-- Register file. -/
  registers : Registers
  /-- The image in its present state. -/
  image : Image
  /-- Whether printable cells that name no instruction are no-ops. -/
  lenient : Bool
  /-- Number of completed phases. -/
  phases : Nat

/-- What one step of an execution did. -/
inductive StepEnd where
  /-- The phase ran to completion. -/
  | completed (status : Status)
  /-- The phase could not run. -/
  | failed (fault : Fault)
  /-- A pointer would leave the sixteen-bit range. -/
  | overflowed
  deriving DecidableEq

/-- How a run ended. -/
inductive RunEnd where
  /-- The program executed an exit instruction. -/
  | exited
  /-- The program failed. -/
  | failed (fault : Fault)
  /-- A pointer would leave the sixteen-bit range. -/
  | overflowed
  /-- The bound on the number of phases was reached. -/
  | unfinished
  deriving DecidableEq

namespace Execution

/-- An execution before its first phase. -/
def ofImage (lenient : Bool) (image : Image) : Execution := ⟨.initial, image, lenient, 0⟩

variable {P : Type} [Channel P]

/-- Run one phase. Only completed phases are counted. -/
@[specialize] def step (execution : Execution) (channel : P) : StepEnd × Execution × P :=
  match execution with
  | ⟨registers, image, lenient, phases⟩ =>
    match Cycle.step lenient (Machine.mk registers image channel) with
    | (outcome, ⟨registers, image, channel⟩) =>
      match outcome with
      | .completed status => (.completed status, ⟨registers, image, lenient, phases + 1⟩, channel)
      | .needsDecision address =>
        (.failed (.uninitialized address), ⟨registers, image, lenient, phases⟩, channel)
      | .failed fault => (.failed fault, ⟨registers, image, lenient, phases⟩, channel)
      | .overflowed => (.overflowed, ⟨registers, image, lenient, phases⟩, channel)

/-- Run until the program exits or fails, for at most `limit` phases. -/
@[specialize] def run (limit : Nat) (execution : Execution) (channel : P) :
    RunEnd × Execution × P :=
  match limit with
  | 0 => (.unfinished, execution, channel)
  | limit + 1 =>
    match execution.step channel with
    | (.completed .running, execution, channel) => run limit execution channel
    | (.completed .exited, execution, channel) => (.exited, execution, channel)
    | (.failed fault, execution, channel) => (.failed fault, execution, channel)
    | (.overflowed, execution, channel) => (.overflowed, execution, channel)

end Execution

end TernarySynth.ImageRun
