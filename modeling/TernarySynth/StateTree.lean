import TernarySynth.Cycle

/-!
# The tree of speculative states

Every node records the registers and the output of a machine and at most one
write on top of its parent. The memory that a node sees is made of the writes
on the path to its root, the nearest first; a cell that nobody on the path has
written is undecided. Nodes live in numbered slots, and a handle is the number
of a slot. A slot counts its holders: handles in use and children that link to
it. When the last holder goes, the slot becomes free and its parent loses a
holder in turn. Free slots are used again, the latest first.
-/

namespace TernarySynth.StateTree

open TritWord CellCode TernarySynth.Cycle

/-- A handle on a node: the number of its slot. -/
abbrev NodeId := Nat

/-- Where a recorded write comes from. -/
inductive WriteKind where
  /-- A search chose the instruction of an undecided cell. -/
  | decision
  /-- The machine wrote the cell while running. -/
  | mutation
  deriving DecidableEq

/-- The write that a node adds to the memory of its parent. -/
structure CellWrite where
  /-- The cell. -/
  address : Word
  /-- Its new value. -/
  value : Word
  /-- Who wrote it. -/
  kind : WriteKind
  deriving DecidableEq

/-- One speculative state of a machine. -/
structure Node where
  /-- Register file. -/
  registers : Registers
  /-- Bytes written so far. -/
  output : List UInt8
  /-- The write of this node, if it has one. -/
  write : Option CellWrite
  /-- The node that this one builds on; none at a root. -/
  parent : Option NodeId
  /-- Number of decisions on the path from the root. -/
  depth : Nat
  deriving DecidableEq

/-- The state before the first phase, with nothing decided. -/
def Node.root : Node := ⟨.initial, [], none, none, 0⟩

/-- The value that a node itself gives to a cell. -/
def Node.valueAt (node : Node) (address : Word) : Option Word :=
  match node.write with
  | some write => if write.address = address then some write.value else none
  | none => none

/-- The decision of a node, as address and value. -/
def Node.decision (node : Node) : Option (Word × Word) :=
  match node.write with
  | some ⟨address, value, .decision⟩ => some (address, value)
  | _ => none

/-- A place for a node and the number of its holders. -/
structure Slot where
  /-- The node; a root while the slot is free. -/
  node : Node
  /-- Handles in use and children. -/
  holders : Nat

/-- All nodes of a search. -/
structure StateTree where
  /-- Every slot that was ever needed. -/
  slots : Array Slot
  /-- Free slots, the latest first. -/
  free : List NodeId
  /-- Number of nodes that are held. -/
  live : Nat

/-- Why an operation on a tree breaks down. -/
inductive Breakdown where
  /-- A node was used that nobody holds. -/
  | released (id : NodeId)
  /-- A handle was given back that nobody holds. -/
  | releasedTwice (id : NodeId)
  /-- More nodes were given back than were handed out. -/
  | miscounted
  /-- A pointer of a node would leave the sixteen-bit range. -/
  | overflowed
  /-- A phase has written two different cells. -/
  | wroteTwice
  /-- A node ran on, or a path went on, for longer than it was given. -/
  | unfinished
  deriving DecidableEq

/-- The reported text of a breakdown. -/
def Breakdown.message : Breakdown → String
  | .released id => "NodeId(" ++ toString id ++ ") was released"
  | .releasedTwice id => "NodeId(" ++ toString id ++ ") released twice"
  | .miscounted => "attempt to subtract with overflow"
  | .overflowed => "attempt to add with overflow"
  | .wroteTwice => "phase wrote two cells"
  | .unfinished => "a node ran on without end"

/-- An operation on a tree, which may break down on the way. -/
abbrev TreeM := EStateM Breakdown StateTree

namespace StateTree

/-- A tree without nodes. -/
def empty : StateTree := ⟨#[], [], 0⟩

/-- The number of holders of a slot; nobody holds a slot that does not exist. -/
def holders (tree : StateTree) (id : NodeId) : Nat :=
  match tree.slots[id]? with
  | some slot => slot.holders
  | none => 0

/-- The node of a held handle. -/
def node? (tree : StateTree) (id : NodeId) : Except Breakdown Node :=
  match tree.slots[id]? with
  | some slot => if slot.holders = 0 then .error (.released id) else .ok slot.node
  | none => .error (.released id)

/-- Read a cell by walking from a node towards the root, over at most `steps`
nodes. A walk that is not over by then has not come to an end. -/
def resolveWithin (tree : StateTree) (address : Word) :
    Nat → NodeId → Except Breakdown (Option Word)
  | 0, _ => .error .unfinished
  | steps + 1, id =>
    match tree.node? id with
    | .error breakdown => .error breakdown
    | .ok node =>
      match node.valueAt address with
      | some value => .ok (some value)
      | none =>
        match node.parent with
        | some parent => resolveWithin tree address steps parent
        | none => .ok none

/-- The value of a cell as a node sees it, or none while it is undecided. A walk
over more nodes than there are slots comes back to one of them, and goes round
for ever. -/
def resolve (tree : StateTree) (id : NodeId) (address : Word) : Except Breakdown (Option Word) :=
  resolveWithin tree address tree.slots.size id

/-- The nodes from a node to its root, over at most `steps` nodes. -/
def pathWithin (tree : StateTree) : Nat → NodeId → Except Breakdown (List Node)
  | 0, _ => .error .unfinished
  | steps + 1, id =>
    match tree.node? id with
    | .error breakdown => .error breakdown
    | .ok node =>
      match node.parent with
      | none => .ok [node]
      | some parent =>
        match pathWithin tree steps parent with
        | .error breakdown => .error breakdown
        | .ok nodes => .ok (node :: nodes)

/-- The nodes from a node to its root, the node itself first. -/
def path (tree : StateTree) (id : NodeId) : Except Breakdown (List Node) :=
  pathWithin tree tree.slots.size id

/-- Add an entry to an ascending list of cells, unless the cell is there. -/
def insertNew (entry : Word × Word) : List (Word × Word) → List (Word × Word)
  | [] => [entry]
  | other :: rest =>
    if entry.1 < other.1 then entry :: other :: rest
    else if entry.1 = other.1 then other :: rest
    else other :: insertNew entry rest

/-- The decisions on a path in ascending order of address. Of several
decisions of a cell the one nearest to the node counts. -/
def decisionsOf (nodes : List Node) : List (Word × Word) :=
  (nodes.filterMap Node.decision).foldl (fun found entry => insertNew entry found) []

/-- The decisions that a node builds on, in ascending order of address. -/
def decisions (tree : StateTree) (id : NodeId) : Except Breakdown (List (Word × Word)) :=
  match tree.path id with
  | .error breakdown => .error breakdown
  | .ok nodes => .ok (decisionsOf nodes)

/-- Add a holder to a slot. -/
def addHolder (tree : StateTree) (id : NodeId) : StateTree :=
  match tree with
  | ⟨slots, free, live⟩ =>
    ⟨slots.modify id fun slot => ⟨slot.node, slot.holders + 1⟩, free, live⟩

/-- Put a node into a free slot, or into a new one, with one holder. -/
def insert (tree : StateTree) (node : Node) : NodeId × StateTree :=
  match tree with
  | ⟨slots, id :: free, live⟩ => (id, ⟨slots.setIfInBounds id ⟨node, 1⟩, free, live + 1⟩)
  | ⟨slots, [], live⟩ => (slots.size, ⟨slots.push ⟨node, 1⟩, [], live + 1⟩)

/-- Take a holder from a slot. When it was the last one, the slot becomes free
and its parent loses a holder. -/
def releaseFrom (tree : StateTree) (id : NodeId) : EStateM.Result Breakdown StateTree Unit :=
  match tree with
  | ⟨slots, free, live⟩ =>
    match slots[id]? with
    | none => .error (.releasedTwice id) ⟨slots, free, live⟩
    | some ⟨node, holders⟩ =>
      match holders with
      | 0 => .error (.releasedTwice id) ⟨slots, free, live⟩
      | holders + 1 =>
        if holders ≠ 0 then
          .ok () ⟨slots.setIfInBounds id ⟨node, holders⟩, free, live⟩
        else
          let slots := slots.setIfInBounds id ⟨.root, 0⟩
          match live with
          | 0 => .error .miscounted ⟨slots, id :: free, 0⟩
          | live + 1 =>
            match node.parent with
            | none => .ok () ⟨slots, id :: free, live⟩
            | some parent => releaseFrom ⟨slots, id :: free, live⟩ parent
termination_by tree.live

end StateTree

/-- Use a pure reading of the tree. -/
@[inline] def observe {α : Type} (reading : StateTree → Except Breakdown α) : TreeM α := fun tree =>
  match reading tree with
  | .ok value => .ok value tree
  | .error breakdown => .error breakdown tree

/-- The node of a held handle. -/
def get (id : NodeId) : TreeM Node := observe (·.node? id)

/-- Add a holder to a node. -/
def retain (id : NodeId) : TreeM Unit := fun tree => .ok () (tree.addHolder id)

/-- Give a handle back. -/
def release (id : NodeId) : TreeM Unit := fun tree => tree.releaseFrom id

/-- Create a node; its parent gains a holder. -/
def link (node : Node) : TreeM NodeId := fun tree =>
  let tree := match node.parent with
    | some parent => tree.addHolder parent
    | none => tree
  match tree.insert node with
  | (id, tree) => .ok id tree

/-- Create a root. -/
def root : TreeM NodeId := link .root

/-- Create a child that decides the instruction of a cell. It is one level
deeper and otherwise in the state of its parent. -/
def decide (parent : NodeId) (address : Word) (instruction : Instruction) : TreeM NodeId := do
  let node ← get parent
  link ⟨node.registers, node.output, some ⟨address, encode address instruction, .decision⟩,
    some parent, node.depth + 1⟩

/-- Create a child for one phase that the machine has run, at the depth of its
parent. -/
def extend (parent : NodeId) (registers : Registers) (output : List UInt8)
    (write : Option CellWrite) : TreeM NodeId := do
  let node ← get parent
  link ⟨registers, output, write, some parent, node.depth⟩

end TernarySynth.StateTree
