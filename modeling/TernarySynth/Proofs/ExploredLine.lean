import TernarySynth.Proofs.LineMachine
import TernarySynth.Proofs.WordRange

/-!
# Lines that a search makes

A search decides a cell only when the machine of a node asks for it, and
otherwise runs phases that complete. So the decisions of a line are exactly the
cells that its run has needed: each of them once, at a word, with the value of
some instruction. And the run is the one that every memory gives which holds
these values from the start.
-/

namespace TernarySynth.Proofs.ExploredLine

open TritWord CellCode MemoryImage SparseMemory TernarySynth.Cycle StateTree
open CodeValues PhaseEffect LateDecision TreeLine LineMachine WordRange

/-- The lines that a search makes. -/
inductive Explored (lenient : Bool) : List Node → Prop where
  /-- It begins at a root. -/
  | root : Explored lenient [.root]
  /-- It decides the cell that a node asks for. -/
  | decided {node child : Node} {nodes : List Node} {address : Word} (instruction : Instruction)
      (before : Explored lenient (node :: nodes))
      (needs : (step lenient (machineOf (node :: nodes))).1 = .needsDecision address)
      (decision : child.decision = some (address, encode address instruction))
      (deeper : child.depth = node.depth + 1)
      (machine_eq : machineOf (child :: node :: nodes) =
        (machineOf (node :: nodes)).store address (encode address instruction)) :
      Explored lenient (child :: node :: nodes)
  /-- It runs a phase that completes. -/
  | ran {node child : Node} {nodes : List Node} (before : Explored lenient (node :: nodes))
      (runs : (step lenient (machineOf (node :: nodes))).1 = .completed .running)
      (decision : child.decision = none) (level : child.depth = node.depth)
      (machine_eq : machineOf (child :: node :: nodes) =
        (step lenient (machineOf (node :: nodes))).2) :
      Explored lenient (child :: node :: nodes)

/-- The decisions on a line, the latest first. -/
def decidedOn (nodes : List Node) : List (Word × Word) := nodes.filterMap Node.decision

/-- A node that decides a cell adds to the decisions. -/
theorem decidedOn_some {child : Node} {entry : Word × Word} (h : child.decision = some entry)
    (nodes : List Node) : decidedOn (child :: nodes) = entry :: decidedOn nodes :=
  List.filterMap_cons_some h

/-- Any other node does not. -/
theorem decidedOn_none {child : Node} (h : child.decision = none) (nodes : List Node) :
    decidedOn (child :: nodes) = decidedOn nodes :=
  List.filterMap_cons_none h

variable {lenient : Bool} {nodes : List Node}

/-- The machine of an explored line is a machine of a search. -/
theorem Explored.searching (h : Explored lenient nodes) : Searching (machineOf nodes) := by
  induction h with
  | root => exact searching_blank fun _ => rfl
  | @decided node child nodes address instruction before needs decision deeper machine_eq ih =>
    rw [machine_eq]
    exact ih.store address (printable_lt (encode_printable address instruction))
  | ran before runs decision level machine_eq ih =>
    rw [machine_eq]
    exact (ih.step lenient).1

/-- A phase that completes leaves the decided cells of a machine as they are. -/
theorem decided_step {M P : Type} [Memory M] [LawfulMemory M] [Channel P] (lenient : Bool)
    (machine : Machine M P) (a : Word) :
    (Memory.read (step lenient machine).2.memory a).isSome ↔
      (Memory.read machine.memory a).isSome := by
  have hself : Alike machine machine := ⟨rfl, rfl, fun _ => rfl⟩
  exact (step_inStep_of_same hself.inStep lenient).2.decided_iff a

/-- The decided cells of the machine of a line are those of its decisions. -/
theorem Explored.decided_iff (h : Explored lenient nodes) (a : Word) :
    (Memory.read (machineOf nodes).memory a).isSome ↔ ∃ v, (a, v) ∈ decidedOn nodes := by
  induction h with
  | root =>
    constructor
    · intro hs
      cases hs
    · rintro ⟨v, hv⟩
      cases hv
  | @decided node child nodes address instruction before needs decision deeper machine_eq ih =>
    rw [machine_eq, store_eq, decidedOn_some decision]
    dsimp only
    rw [PartialMemory.read_write]
    simp only [List.mem_cons, Prod.mk.injEq, exists_or, exists_and_left, exists_eq, and_true]
    by_cases ha : address = a
    · simp only [ha, if_true, Option.isSome_some, true_or]
    · simp only [ha, if_false, ih, Ne.symm ha, false_or]
  | ran before runs decision level machine_eq ih =>
    rw [machine_eq, decided_step, ih, decidedOn_none decision]

/-- No cell is decided twice. -/
theorem Explored.nodup (h : Explored lenient nodes) :
    ((decidedOn nodes).map Prod.fst).Nodup := by
  induction h with
  | root => exact List.nodup_nil
  | @decided node child nodes address instruction before needs decision deeper machine_eq ih =>
    rw [decidedOn_some decision, List.map_cons, List.nodup_cons]
    refine ⟨fun hm => ?_, ih⟩
    obtain ⟨⟨a, v⟩, hv, rfl⟩ := List.mem_map.mp hm
    have hs := (before.decided_iff a).mpr ⟨v, hv⟩
    rw [(step_needsDecision needs).2.1] at hs
    cases hs
  | ran before runs decision level machine_eq ih =>
    rw [decidedOn_none decision]
    exact ih

/-- Every decision is the value of an instruction at its address, which is a
word. -/
theorem Explored.encoded (h : Explored lenient nodes) {a v : Word}
    (hm : (a, v) ∈ decidedOn nodes) :
    a < wordSize ∧ ∃ instruction, v = encode a instruction := by
  induction h with
  | root => cases hm
  | @decided node child nodes address instruction before needs decision deeper machine_eq ih =>
    rw [decidedOn_some decision, List.mem_cons] at hm
    rcases hm with heq | hm
    · cases heq
      exact ⟨(before.searching.step lenient).2.2 a needs, instruction, rfl⟩
    · exact ih hm
  | ran before runs decision level machine_eq ih =>
    rw [decidedOn_none decision] at hm
    exact ih hm

/-- The depth of a node is the number of decisions on its line. -/
theorem Explored.depth_eq {node : Node} (h : Explored lenient (node :: nodes)) :
    node.depth = (decidedOn (node :: nodes)).length := by
  generalize hl : node :: nodes = line at h
  induction h generalizing node nodes with
  | root =>
    cases hl
    rfl
  | decided instruction before needs decision deeper machine_eq ih =>
    cases hl
    rw [deeper, decidedOn_some decision, List.length_cons, ih rfl]
  | ran before runs decision level machine_eq ih =>
    cases hl
    rw [level, decidedOn_none decision, ih rfl]

/-- A memory that holds the decisions of a line from the start gives the run of
the line: after some number of phases, none of which stops, it is in step with
the machine of the line. -/
theorem Explored.replay {F : Type} [Memory F] [LawfulMemory F] (full : F)
    (h : Explored lenient nodes)
    (holds : ∀ a v, (a, v) ∈ decidedOn nodes → Memory.read full a = some v) :
    ∃ n, let run := calls lenient n ⟨.initial, full, Transcript.Transcript.withoutInput []⟩
      (∀ outcome ∈ run.1, outcome = .completed .running) ∧
        InStep (fun a => ∃ v, (a, v) ∈ decidedOn nodes) (Memory.read full) (machineOf nodes)
          run.2 := by
  induction h with
  | root =>
    refine ⟨0, nofun, rfl, rfl, (Explored.root : Explored lenient _).decided_iff, ?_, fun _ _ => rfl⟩
    rintro a ⟨v, hv⟩
    cases hv
  | @decided node child nodes address instruction before needs decision deeper machine_eq ih =>
    have hcons := decidedOn_some decision (node :: nodes)
    rw [hcons] at holds ⊢
    obtain ⟨n, hrun, hs⟩ := ih fun a v hv => holds a v (List.mem_cons_of_mem _ hv)
    have hnew : ¬ ∃ v, (address, v) ∈ decidedOn (node :: nodes) := by
      rw [← before.decided_iff, (step_needsDecision needs).2.1]
      exact Bool.false_ne_true
    refine ⟨n, hrun, ?_⟩
    rw [machine_eq]
    refine (hs.decide hnew (holds _ _ List.mem_cons_self)).congr (fun a => ?_) fun _ _ => rfl
    simp only [List.mem_cons, Prod.mk.injEq, exists_or, exists_and_left, exists_eq, and_true]
    rw [or_comm, eq_comm]
  | ran before runs decision level machine_eq ih =>
    have hcons := decidedOn_none decision
    rw [hcons] at holds
    obtain ⟨n, hrun, hs⟩ := ih holds
    refine ⟨n + 1, ?_⟩
    rw [calls_add, hcons, machine_eq]
    rcases step_inStep hs lenient with ⟨a, hw, -⟩ | ⟨ho, hs'⟩
    · rw [hw] at runs
      cases runs
    · refine ⟨fun outcome hm => ?_, hs'⟩
      rcases List.mem_append.mp hm with hm | hm
      · exact hrun outcome hm
      · rw [List.mem_singleton.mp hm, ho, runs]

end TernarySynth.Proofs.ExploredLine
