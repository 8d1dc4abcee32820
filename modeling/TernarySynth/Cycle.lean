import TernarySynth.CellCode
import TernarySynth.MemoryImage
import TernarySynth.StreamError

/-!
# The instruction cycle

One call to `step` runs one of the two phases of a cycle. The fetch phase
decodes the cell under `c` and executes it; the advance phase replaces the
cell under `c` by its encryption and moves `c` and `d` on by one. Memory and
channel are supplied by the caller, so the same function drives a loaded
program and a search over memory that is only partly decided. A phase that
reads an undecided cell reports the address and has no effect, so that the
caller can decide the cell and run the phase again.
-/

namespace TernarySynth.Cycle

open TritWord CellCode MemoryImage StreamError

/-- Which half of the instruction cycle runs next. -/
inductive Phase where
  /-- Decode and execute the cell under `c`. -/
  | fetch
  /-- Encrypt the cell under `c` and move both pointers on. -/
  | advance
  deriving DecidableEq, Inhabited

/-- The registers of the machine. -/
structure Registers where
  /-- Accumulator. -/
  a : Word
  /-- Code pointer. -/
  c : Word
  /-- Data pointer. -/
  d : Word
  /-- Phase that the next step runs. -/
  phase : Phase
  deriving DecidableEq

/-- All registers are zero before the first fetch. -/
def Registers.initial : Registers := ⟨0, 0, 0, .fetch⟩

instance : Inhabited Registers := ⟨.initial⟩

/-- Why a machine cannot go on. -/
inductive Fault where
  /-- The cell under the code pointer names no instruction. -/
  | undecodable (address value : Word)
  /-- The executed cell is no longer printable. -/
  | unencryptable (address value : Word)
  /-- An input instruction ran where there is no input. -/
  | inputUnavailable
  /-- A memory that should be full has an undecided cell. -/
  | uninitialized (address : Word)
  /-- Reading input or writing output failed. -/
  | io (error : IoError)
  deriving DecidableEq

/-- The reported text of a fault. -/
def Fault.message : Fault → String
  | .undecodable address value =>
    "cannot decode cell " ++ toString address ++ " holding " ++ toString value
  | .unencryptable address value =>
    "cell " ++ toString address ++ " holding " ++ toString value ++
      " is not printable and cannot be encrypted"
  | .inputUnavailable => "input is unavailable"
  | .uninitialized address => "memory cell " ++ toString address ++ " is uninitialized"
  | .io error => "io error: " ++ error.message

/-- Byte-wise input and output of a machine. Each call also gives the channel
that later calls use, whether it succeeded or not. -/
class Channel (P : Type) where
  /-- Write one byte. -/
  output : P → UInt8 → Except Fault Unit × P
  /-- Read one byte, or `eofWord` at the end of the input. -/
  input : P → Except Fault Word × P

/-- State of the machine after a completed phase. -/
inductive Status where
  /-- The machine can take another step. -/
  | running
  /-- An exit instruction was executed. -/
  | exited
  deriving DecidableEq

/-- What one call to `step` did. -/
inductive Outcome where
  /-- The phase ran to completion. -/
  | completed (status : Status)
  /-- The phase needs this undecided cell and did not run. -/
  | needsDecision (address : Word)
  /-- The phase cannot run. -/
  | failed (fault : Fault)
  /-- A pointer would leave the sixteen-bit range. No pointer of a running
  machine gets near it, since words stay below `wordSize`. -/
  | overflowed
  deriving DecidableEq

/-- Everything that a step can change. -/
structure Machine (M P : Type) where
  /-- Register file. -/
  registers : Registers
  /-- Cell storage. -/
  memory : M
  /-- Input and output. -/
  channel : P

/-- Largest sixteen-bit number. -/
def registerMax : Nat := 65535

/-- The address after an address; the last one is followed by 0. -/
def increment (register : Word) : Word :=
  if register = wordSize - 1 then 0 else register + 1

variable {M P : Type}

/-- Store a value in a cell. -/
@[inline] def Machine.store [Memory M] (machine : Machine M P) (address value : Word) :
    Machine M P :=
  match machine with
  | ⟨registers, memory, channel⟩ => ⟨registers, Memory.write memory address value, channel⟩

/-- The phase ends here with these registers, and the machine runs on. -/
@[inline] def Machine.proceed (machine : Machine M P) (registers : Registers) :
    Outcome × Machine M P :=
  match machine with
  | ⟨_, memory, channel⟩ => (.completed .running, ⟨registers, memory, channel⟩)

/-- Go on with the value of a cell; an undecided one stops the phase first. -/
@[inline] def Machine.withCell [Memory M] (machine : Machine M P) (address : Word)
    (effect : Word → Outcome × Machine M P) : Outcome × Machine M P :=
  match Memory.read machine.memory address with
  | none => (.needsDecision address, machine)
  | some value => effect value

/-- Write one byte; a channel that refuses it stops the phase. -/
@[inline] def Machine.writeByte [Channel P] (machine : Machine M P) (byte : UInt8)
    (registers : Registers) : Outcome × Machine M P :=
  match machine with
  | ⟨before, memory, channel⟩ =>
    match Channel.output channel byte with
    | (.ok (), channel) => (.completed .running, ⟨registers, memory, channel⟩)
    | (.error fault, channel) => (.failed fault, ⟨before, memory, channel⟩)

/-- Read one value from the channel; a channel that refuses stops the phase. -/
@[inline] def Machine.readValue [Channel P] (machine : Machine M P)
    (registers : Word → Registers) : Outcome × Machine M P :=
  match machine with
  | ⟨before, memory, channel⟩ =>
    match Channel.input channel with
    | (.ok value, channel) => (.completed .running, ⟨registers value, memory, channel⟩)
    | (.error fault, channel) => (.failed fault, ⟨before, memory, channel⟩)

/-- Execute an instruction that has been fetched. -/
@[specialize] def Machine.execute [Memory M] [Channel P] (machine : Machine M P)
    (instruction : Instruction) : Outcome × Machine M P :=
  let registers := machine.registers
  let after := { registers with phase := .advance }
  match instruction with
  | .moveD =>
    machine.withCell registers.d fun value => machine.proceed { after with d := value }
  | .jump =>
    machine.withCell registers.d fun value => machine.proceed { after with c := value }
  | .rotateRight =>
    machine.withCell registers.d fun value =>
      (machine.store registers.d (rotateRight value)).proceed
        { after with a := rotateRight value }
  | .combine =>
    machine.withCell registers.d fun value =>
      (machine.store registers.d (combine registers.a value)).proceed
        { after with a := combine registers.a value }
  | .output => machine.writeByte (UInt8.ofNat (registers.a % 256)) after
  | .input => machine.readValue fun value => { after with a := value }
  | .exit => (.completed .exited, machine)
  | .noOp => machine.proceed after

/-- Decode the cell under `c` and execute it. -/
@[specialize] def Machine.fetch [Memory M] [Channel P] (lenient : Bool) (machine : Machine M P) :
    Outcome × Machine M P :=
  let address := machine.registers.c
  machine.withCell address fun value =>
    match decode lenient address value with
    | none => (.failed (.undecodable address value), machine)
    | some instruction => machine.execute instruction

/-- Encrypt the cell under `c` and move both pointers on. -/
@[specialize] def Machine.advance [Memory M] (machine : Machine M P) : Outcome × Machine M P :=
  let registers := machine.registers
  machine.withCell registers.c fun value =>
    match encrypt value with
    | none => (.failed (.unencryptable registers.c value), machine)
    | some encrypted =>
      if registers.c = registerMax ∨ registers.d = registerMax then (.overflowed, machine)
      else
        (machine.store registers.c encrypted).proceed
          ⟨registers.a, increment registers.c, increment registers.d, .fetch⟩

/-- Run the phase that the registers select. A printable cell that names no
instruction is executed as a no-op when `lenient`, and fails to decode
otherwise. -/
@[specialize] def step [Memory M] [Channel P] (lenient : Bool) (machine : Machine M P) :
    Outcome × Machine M P :=
  match machine.registers.phase with
  | .fetch => machine.fetch lenient
  | .advance => machine.advance

end TernarySynth.Cycle
