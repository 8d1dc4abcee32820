import TernarySynth.Proofs.PhaseEffect
import TernarySynth.Proofs.HolderBooks
import TernarySynth.Speculation

/-!
# The machine of a line

A line of nodes stands for a machine of its own: registers and output of its
first node, and the memory that the writes of all its nodes make up. Running a
phase on the node is running it on this machine, and deciding a cell below the
node is storing a value in this machine. So the tree can be forgotten wherever
only the behaviour of a node matters.
-/

namespace TernarySynth.Proofs.LineMachine

open TritWord CellCode MemoryImage SparseMemory TernarySynth.Cycle StateTree Speculation
open PhaseEffect TreeLine HolderBooks

/-- The machine that the nodes of a line stand for. Its memory is partly
decided; its channel collects the output and has no input. Without nodes it is
the machine before its first phase. -/
def machineOf : List Node → Machine SparseMemory Transcript.Transcript
  | [] => ⟨.initial, .empty, .withoutInput []⟩
  | node :: rest => ⟨node.registers, memoryOf (node :: rest), .withoutInput node.output⟩

variable {tree : StateTree} {held : Multiset NodeId} {id : NodeId} {node : Node}
variable {line : List (NodeId × Node)}

/-- Before a phase has written, the lineage of a node reads what the machine of
its line reads. -/
theorem read_lineage (h : Line tree id ((id, node) :: line)) :
    Memory.read (Lineage.mk tree id none false) =
      Memory.read (machineOf (node :: nodesOf line)).memory := by
  funext address
  change Lineage.before _ address = _
  rw [Lineage.before, h.resolve_eq]
  rfl

/-- An effect on a node, with its write kept aside, is the effect on the machine
of its line. One cell at most is written. -/
theorem perform_lineage (tree : StateTree) (id : NodeId) (node : Node) (nodes : List Node)
    (effect : Effect) :
    let aside := perform (Machine.mk node.registers (Lineage.mk tree id none false)
      (Transcript.Transcript.withoutInput node.output)) effect
    let direct := perform (machineOf (node :: nodes)) effect
    aside.1 = direct.1 ∧ aside.2.memory.torn = false ∧
      ∀ child : Node, child.registers = aside.2.registers →
        child.output = aside.2.channel.output → child.write = mutation aside.2.memory.staged →
        machineOf (child :: node :: nodes) = direct.2 := by
  have hsame : ∀ child : Node, child.write = mutation none →
      memoryOf (child :: node :: nodes) = memoryOf (node :: nodes) := by
    intro child hw
    simp only [memoryOf, List.filterMap_cons, cellOf, hw, mutation, Option.map_none]
  cases effect with
  | store address value registers =>
    refine ⟨rfl, rfl, fun child hr ho hw => ?_⟩
    have hcell : cellOf child = some (address, value) := by
      rw [cellOf, hw]
      rfl
    simp only [machineOf, memoryOf, List.filterMap_cons, hcell, hr, ho]
    rfl
  | _ =>
    refine ⟨rfl, rfl, fun child hr ho hw => ?_⟩
    simp only [machineOf, hsame child hw, hr, ho]
    rfl

/-- A phase of a node is a phase of the machine of its line: the outcome is the
same, one cell at most is written, and a child that records what the phase did
stands for the machine after it. -/
theorem phaseOf_eq (h : Line tree id ((id, node) :: line)) (lenient : Bool) :
    let phase := phaseOf lenient tree id node
    let direct := step lenient (machineOf (node :: nodesOf line))
    phase.outcome = direct.1 ∧ phase.torn = false ∧
      ∀ child : Node, child.registers = phase.registers → child.output = phase.output →
        child.write = mutation phase.staged →
        machineOf (child :: node :: nodesOf line) = direct.2 := by
  dsimp only [phaseOf]
  rw [step_eq_perform, step_eq_perform, read_lineage h]
  exact perform_lineage tree id node (nodesOf line) _

/-- What creating a node on top of a line does to a tree whose books are in
order. -/
structure Successor (tree tree' : StateTree) (held : Multiset NodeId)
    (line : List (NodeId × Node)) (child : NodeId) (node : Node) : Prop where
  /-- The handle of the new node is in use. -/
  books : Books tree' (child ::ₘ held)
  /-- Nothing else has changed. -/
  grown : Grown tree tree' child node
  /-- Its line goes on with the old one. -/
  line : Line tree' child ((child, node) :: line)

/-- A node that links to a live one comes on top of its line. -/
theorem link_successor (hb : Books tree held) {line : List (NodeId × Node)}
    (h : Line tree id line) {child : Node} (hp : child.parent = some id) :
    ∃ other tree', link child tree = .ok other tree' ∧
      Successor tree tree' held line other child := by
  have hlive : ∀ parent, child.parent = some parent → Live tree parent := by
    intro parent hparent
    rw [hp] at hparent
    cases hparent
    exact h.live
  obtain ⟨other, tree', hl, hb', hg⟩ := hb.link hlive
  exact ⟨other, tree', hl, hb', hg, .child hg.here hp (hg.keeps h)⟩

/-- Deciding a cell below a live node creates a child one level deeper, whose
machine has the value of the instruction stored. -/
theorem decide_eq (hb : Books tree held) (h : Line tree id ((id, node) :: line)) (address : Word)
    (instruction : Instruction) :
    ∃ other child tree', decide id address instruction tree = .ok other tree' ∧
      Successor tree tree' held ((id, node) :: line) other child ∧
      child.decision = some (address, encode address instruction) ∧
      child.depth = node.depth + 1 ∧
      machineOf (child :: node :: nodesOf line) =
        (machineOf (node :: nodesOf line)).store address (encode address instruction) := by
  have hn : tree.node? id = .ok node := h.node?_of_mem List.mem_cons_self
  let child : Node := ⟨node.registers, node.output,
    some ⟨address, encode address instruction, .decision⟩, some id, node.depth + 1⟩
  obtain ⟨other, tree', hl, hs⟩ := link_successor hb h (show child.parent = some id from rfl)
  refine ⟨other, child, tree', ?_, hs, rfl, rfl, rfl⟩
  simp only [StateTree.decide, bind, EStateM.bind, StateTree.get, observe, hn]
  exact hl

/-- A phase that completes makes a child of the same depth, whose machine is the
machine after the phase. -/
theorem transition_running (hb : Books tree held) (h : Line tree id ((id, node) :: line))
    {lenient : Bool}
    (hrun : (step lenient (machineOf (node :: nodesOf line))).1 = .completed .running) :
    ∃ other child tree', transition lenient id tree = .ok (.stepped other) tree' ∧
      Successor tree tree' held ((id, node) :: line) other child ∧
      child.decision = none ∧ child.depth = node.depth ∧
      machineOf (child :: node :: nodesOf line) =
        (step lenient (machineOf (node :: nodesOf line))).2 := by
  have hn : tree.node? id = .ok node := h.node?_of_mem List.mem_cons_self
  obtain ⟨ho, ht, hm⟩ := phaseOf_eq h lenient
  let phase := phaseOf lenient tree id node
  let child : Node := ⟨phase.registers, phase.output, mutation phase.staged, some id, node.depth⟩
  obtain ⟨other, tree', hl, hs⟩ := link_successor hb h (show child.parent = some id from rfl)
  refine ⟨other, child, tree', ?_, hs, ?_, rfl, hm child rfl rfl rfl⟩
  · simp only [transition, bind, EStateM.bind, StateTree.get, observe, hn, ht, ho, hrun,
      StateTree.extend, Bool.false_eq_true, if_false, pure, EStateM.pure]
    simp only [child, phase] at hl
    rw [hl]
  · cases hst : phase.staged with
    | none => simp only [Node.decision, child, hst, mutation, Option.map_none]
    | some entry => simp only [Node.decision, child, hst, mutation, Option.map_some]

/-- The answer of a node to a phase that makes no child. -/
def standing : Outcome → Option Transition
  | .completed .running => none
  | .completed .exited => some .exited
  | .needsDecision address => some (.needsDecision address)
  | .failed fault => some (.failed fault)
  | .overflowed => none

/-- A phase that makes no child leaves the tree as it was. -/
theorem transition_still (h : Line tree id ((id, node) :: line)) {lenient : Bool}
    {answer : Transition}
    (ha : standing (step lenient (machineOf (node :: nodesOf line))).1 = some answer) :
    transition lenient id tree = .ok answer tree := by
  have hn : tree.node? id = .ok node := h.node?_of_mem List.mem_cons_self
  obtain ⟨ho, ht, -⟩ := phaseOf_eq h lenient
  simp only [transition, bind, EStateM.bind, StateTree.get, observe, hn, ht, ho,
    Bool.false_eq_true, if_false, pure]
  cases hs : (step lenient (machineOf (node :: nodesOf line))).1 with
  | completed status =>
    rw [hs] at ha
    cases status with
    | running => cases ha
    | exited =>
      cases ha
      rfl
  | needsDecision address =>
    rw [hs] at ha
    cases ha
    simp only [EStateM.bind, observe, h.resolve_eq, EStateM.pure]
  | failed fault =>
    rw [hs] at ha
    cases ha
    rfl
  | overflowed =>
    rw [hs] at ha
    cases ha

end TernarySynth.Proofs.LineMachine
