import TernarySynth.StateTree
import TernarySynth.Transcript

/-!
# Running a node

`transition` runs one phase on a node of a state tree. Cells are read through
the ancestors of the node, and the write of the phase is kept aside. A phase
that completes becomes a child with the new registers, output and write. A
phase that reads an undecided cell, fails or exits leaves the tree as it was.
There is no input: a search cannot wait for any.
-/

namespace TernarySynth.Speculation

open TritWord MemoryImage TernarySynth.Cycle StateTree

/-- The memory that a node sees, with the write of the running phase. -/
structure Lineage where
  /-- The tree. -/
  tree : StateTree
  /-- The node. -/
  node : NodeId
  /-- What the phase has written. One phase writes at most one cell. -/
  staged : Option (Word × Word)
  /-- Whether the phase has written a second cell all the same. -/
  torn : Bool

namespace Lineage

/-- The value of a cell before the phase. A path that cannot be followed
decides nothing. -/
def before (memory : Lineage) (address : Word) : Option Word :=
  match memory.tree.resolve memory.node address with
  | .ok value => value
  | .error _ => none

/-- The value of a cell: what the phase has written, or else the value before. -/
def read (memory : Lineage) (address : Word) : Option Word :=
  match memory.staged with
  | some (cell, value) => if cell = address then some value else memory.before address
  | none => memory.before address

/-- Keep a write aside. -/
def write (memory : Lineage) (address value : Word) : Lineage :=
  match memory with
  | ⟨tree, node, none, torn⟩ => ⟨tree, node, some (address, value), torn⟩
  | ⟨tree, node, some (cell, _), torn⟩ =>
    ⟨tree, node, some (address, value), torn || cell != address⟩

instance : Memory Lineage where
  read := read
  write := write

end Lineage

/-- What running one phase of a node has led to. -/
inductive Transition where
  /-- The phase ran and produced this child. -/
  | stepped (child : NodeId)
  /-- The node executes an exit instruction. -/
  | exited
  /-- The phase reads this undecided cell. -/
  | needsDecision (address : Word)
  /-- The phase cannot run. -/
  | failed (fault : Fault)

/-- The recorded form of a write that a phase has made. -/
def mutation (staged : Option (Word × Word)) : Option CellWrite :=
  staged.map fun entry => ⟨entry.1, entry.2, .mutation⟩

/-- One phase of a node, seen from outside the tree. -/
structure PhaseReport where
  /-- What the phase did. -/
  outcome : Outcome
  /-- Registers after it. -/
  registers : Registers
  /-- All bytes written up to its end. -/
  output : List UInt8
  /-- The cell that it wrote, and the value. -/
  staged : Option (Word × Word)
  /-- Whether it wrote a second cell. -/
  torn : Bool

/-- Run one phase of a node without changing the tree. -/
def phaseOf (lenient : Bool) (tree : StateTree) (id : NodeId) (node : Node) : PhaseReport :=
  match step lenient (Machine.mk node.registers (Lineage.mk tree id none false)
    (Transcript.Transcript.withoutInput node.output)) with
  | (outcome, ⟨registers, ⟨_, _, staged, torn⟩, ⟨output, _⟩⟩) =>
    ⟨outcome, registers, output, staged, torn⟩

/-- Run the next phase of a node. -/
def transition (lenient : Bool) (id : NodeId) : TreeM Transition := do
  let node ← get id
  let phase ← observe fun tree => .ok (phaseOf lenient tree id node)
  if phase.torn then throw .wroteTwice
  match phase.outcome with
  | .failed fault => return .failed fault
  | .overflowed => throw .overflowed
  | .completed .exited => return .exited
  | .completed .running =>
    return .stepped (← extend id phase.registers phase.output (mutation phase.staged))
  | .needsDecision address =>
    -- A path that cannot be followed looks like an undecided cell and is told apart here.
    let _ ← observe (·.resolve id address)
    return .needsDecision address

end TernarySynth.Speculation
