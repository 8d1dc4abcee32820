import TernarySynth.Proofs.CellReads
import TernarySynth.Proofs.ClientHistory
import TernarySynth.Proofs.FoundText
import TernarySynth.Proofs.SearchWork

/-!
# The shape of a path

The nodes from a node of a search up to its root record what its run has asked for and
what it has written. No cell is decided twice, a phase writes only cells that a node
nearer to the root has decided, and what is written is printable unless a rotation or a
combination has computed it. So the decisions of a node are the initial memory that its
run depends on: with them it goes as far as the node, whatever else the memory holds, and
without one of them it stops at that cell.
-/

namespace TernarySynth.Proofs.PathShape

open TritWord CellCode MemoryImage SparseMemory TernarySynth.Cycle StateTree Speculation
open BeamSearch TargetSearch
open CodeValues PhaseEffect LateDecision CellReads TreeLine HolderBooks LineMachine ExploredLine
open Lookahead NodeExpansion TargetLedger ExpansionEnd RoundYield ClientHistory SearchWork
open FoundText

section Writes

/-- The next phase of a machine executes an instruction. -/
def Executes (lenient : Bool) (machine : LineMachine) (instruction : Instruction) : Prop :=
  machine.registers.phase = .fetch ∧ ∃ value,
    Memory.read machine.memory machine.registers.c = some value ∧
    decode lenient machine.registers.c value = some instruction

/-- A write that a phase has made on top of a path by executing a rotation or a
combination. -/
def Computed (lenient : Bool) (write : CellWrite) (earlier : List Node) : Prop :=
  write.kind = .mutation ∧ (Executes lenient (machineOf earlier) .rotateRight ∨
    Executes lenient (machineOf earlier) .combine)

/-- A node of a path writes a cell, on top of the earlier nodes, and no later node writes
this cell. -/
def LatestWrite (nodes : List Node) (write : CellWrite) (earlier : List Node) : Prop :=
  ∃ later child, nodes = later ++ child :: earlier ∧ child.write = some write ∧
    ∀ other ∈ later, other.valueAt write.address = none

variable {lenient : Bool} {nodes earlier : List Node} {child node : Node} {write : CellWrite}
variable {registers after : Registers} {read : Word → Option Word} {address value : Word}

/-- Only a rotation and a combination store a value. -/
theorem instruction_of_store {instruction : Instruction}
    (h : executeEffect registers read instruction = .store address value after) :
    instruction = .rotateRight ∨ instruction = .combine := by
  cases instruction with
  | rotateRight => exact .inl rfl
  | combine => exact .inr rfl
  | output => cases h
  | input => cases h
  | exit => cases h
  | noOp => cases h
  | _ =>
    rcases needing_cases read registers.d _ with ⟨-, he⟩ | ⟨old, -, he⟩ <;>
      cases he.symm.trans h

/-- What a phase stores is printable, unless it executes one of these. -/
theorem store_printable_or {machine : LineMachine}
    (h : effect lenient machine.registers (Memory.read machine.memory) =
      .store address value after) :
    isPrintable value = true ∨ Executes lenient machine .rotateRight ∨
      Executes lenient machine .combine := by
  unfold effect at h
  cases hp : machine.registers.phase with
  | fetch =>
    simp only [hp] at h
    rcases fetchEffect_cases lenient machine.registers (Memory.read machine.memory) with
      ⟨_, he⟩ | ⟨-, he⟩ | ⟨code, instruction, hv, hd, he⟩
    · cases he.symm.trans h
    · cases he.symm.trans h
    · rcases instruction_of_store (he.symm.trans h) with rfl | rfl
      · exact .inr (.inl ⟨hp, code, hv, hd⟩)
      · exact .inr (.inr ⟨hp, code, hv, hd⟩)
  | advance =>
    simp only [hp] at h
    rcases advanceEffect_cases machine.registers (Memory.read machine.memory) with
      ⟨_, he⟩ | ⟨-, he⟩ | he | ⟨old, encrypted, -, hi, he⟩
    · cases he.symm.trans h
    · cases he.symm.trans h
    · cases he.symm.trans h
    · cases he.symm.trans h
      exact .inl (encrypt_printable hi)

/-- Any other effect leaves the memory as it is. -/
theorem perform_memory {M P : Type} [Memory M] [Channel P] (machine : Machine M P)
    (effect : Effect) : (∃ address value after, effect = .store address value after) ∨
      (perform machine effect).2.memory = machine.memory := by
  cases effect with
  | store address value after => exact .inl ⟨address, value, after, rfl⟩
  | wait address => exact .inr rfl
  | refuse fault => exact .inr rfl
  | overflow => exact .inr rfl
  | halt => exact .inr rfl
  | move after => exact .inr rfl
  | emit byte after =>
    refine .inr ?_
    rw [perform, writeByte_eq]
    split <;> rfl
  | take after =>
    refine .inr ?_
    rw [perform, readValue_eq]
    split <;> rfl

/-- A node that writes a cell after a phase records the store that the phase has made. -/
theorem effect_of_write (hw : child.write = some write)
    (machine_eq : machineOf (child :: node :: nodes) =
      (step lenient (machineOf (node :: nodes))).2) :
    ∃ after, effect lenient (machineOf (node :: nodes)).registers
        (Memory.read (machineOf (node :: nodes)).memory) =
      .store write.address write.value after := by
  rw [step_eq_perform] at machine_eq
  -- The write makes the history of the memory one entry longer.
  have hhistory : (machineOf (child :: node :: nodes)).memory.history =
      (write.address, write.value) :: (machineOf (node :: nodes)).memory.history := by
    have hcell : cellOf child = some (write.address, write.value) := by
      rw [cellOf, hw]
      rfl
    exact List.filterMap_cons_some hcell
  rw [machine_eq] at hhistory
  generalize effect lenient (machineOf (node :: nodes)).registers
    (Memory.read (machineOf (node :: nodes)).memory) = effect at hhistory ⊢
  rcases perform_memory (machineOf (node :: nodes)) effect with ⟨a, v, after, rfl⟩ | hsame
  · obtain ⟨hentry, -⟩ := List.cons.inj hhistory
    cases hentry
    exact ⟨after, rfl⟩
  · rw [hsame] at hhistory
    exact absurd hhistory.symm (List.cons_ne_self _ _)

end Writes

section Paths

variable {lenient : Bool} {nodes later earlier : List Node} {child : Node} {write : CellWrite}

/-- A cell holds what the latest write has put there. -/
theorem LatestWrite.read_eq (h : LatestWrite nodes write earlier) :
    (memoryOf nodes).read write.address = some write.value := by
  obtain ⟨later, child, rfl, hw, hlater⟩ := h
  induction later with
  | nil =>
    have hvalue : child.valueAt write.address = some write.value := by
      rw [Node.valueAt, hw]
      exact if_pos rfl
    rw [List.nil_append, read_memoryOf_cons, hvalue]
  | cons other later ih =>
    rw [List.cons_append, read_memoryOf_cons, hlater other List.mem_cons_self]
    exact ih fun node hm => hlater node (List.mem_cons_of_mem _ hm)

/-- A decision is recorded as one. -/
theorem decision_of_kind (hw : child.write = some write) (hk : write.kind = .decision) :
    child.decision = some (write.address, write.value) := by
  obtain ⟨address, value, kind⟩ := write
  cases hk
  rw [Node.decision, hw]

/-- A mutation is not. -/
theorem decision_of_mutation (hw : child.write = some write) (hk : write.kind = .mutation) :
    child.decision = none := by
  obtain ⟨address, value, kind⟩ := write
  cases hk
  rw [Node.decision, hw]

/-- From every node of an explored line on, the rest of the line is an explored line. -/
theorem explored_suffix (h : Explored lenient (later ++ child :: earlier)) :
    Explored lenient (child :: earlier) := by
  induction later with
  | nil => exact h
  | cons other later ih =>
    rw [List.cons_append] at h
    generalize hl : later ++ child :: earlier = rest at h ih
    cases h with
    | root => exact absurd hl (List.append_ne_nil_of_right_ne_nil _ (List.cons_ne_nil _ _))
    | decided instruction before needs decision deeper machine_eq => exact ih before
    | ran before runs decision level machine_eq => exact ih before

/-- A write on an explored line is a decision, or the store of a phase that was run on top of
the explored line above it. -/
theorem wrote_of_explored (h : Explored lenient (later ++ child :: earlier))
    (hw : child.write = some write) :
    write.kind = .decision ∨ write.kind = .mutation ∧ Explored lenient earlier ∧
      ∃ after, effect lenient (machineOf earlier).registers
        (Memory.read (machineOf earlier).memory) = .store write.address write.value after := by
  cases explored_suffix h with
  | root => cases hw
  | decided instruction before needs decision deeper machine_eq =>
    cases hk : write.kind with
    | decision => exact .inl rfl
    | mutation =>
      rw [decision_of_mutation hw hk] at decision
      cases decision
  | ran before runs decision level machine_eq =>
    cases hk : write.kind with
    | decision =>
      rw [decision_of_kind hw hk] at decision
      cases decision
    | mutation => exact .inr ⟨rfl, before, effect_of_write hw machine_eq⟩

/-- A phase writes only a cell that was decided nearer to the root. -/
theorem mutated_decided (h : Explored lenient (later ++ child :: earlier))
    (hw : child.write = some write) (hk : write.kind = .mutation) :
    write.address ∈ (decidedOn earlier).map Prod.fst := by
  rcases wrote_of_explored h hw with hk' | ⟨-, habove, after, he⟩
  · cases hk.symm.trans hk'
  · obtain ⟨v, hv⟩ := (habove.decided_iff write.address).mp (effect_store_decided he)
    exact List.mem_map.mpr ⟨_, hv, rfl⟩

/-- What is written is printable, unless it was computed. -/
theorem written_printable (h : Explored lenient (later ++ child :: earlier))
    (hw : child.write = some write) (hc : ¬ Computed lenient write earlier) :
    isPrintable write.value = true := by
  rcases wrote_of_explored h hw with hk | ⟨hk, -, after, he⟩
  · have hm : (write.address, write.value) ∈ decidedOn (later ++ child :: earlier) :=
      List.mem_filterMap.mpr ⟨child, List.mem_append_right _ List.mem_cons_self,
        decision_of_kind hw hk⟩
    obtain ⟨-, instruction, hv⟩ := h.encoded hm
    rw [hv]
    exact encode_printable _ _
  · exact (store_printable_or he).resolve_right fun hx => hc ⟨hk, hx⟩

end Paths

section Dependence

/-- A machine before its first phase, without input. -/
def startOn {F : Type} (memory : F) : Machine F Transcript.Transcript :=
  ⟨.initial, memory, .withoutInput []⟩

variable {F : Type} [Memory F]

/-- A number of phases complete, none of them with an exit, and lead to a machine. -/
def RunsFor (lenient : Bool) (n : Nat) (machine last : Machine F Transcript.Transcript) : Prop :=
  (∀ outcome ∈ (calls lenient n machine).1, outcome = .completed .running) ∧
    (calls lenient n machine).2 = last

/-- Some entries are the initial memory that the run of a path depends on. -/
structure DependsOn (lenient : Bool) (nodes : List Node) (entries : List (Word × Word))
    (phases : Nat) : Prop where
  /-- Every node but the root has decided one of the cells or run one of the phases. -/
  length_eq : nodes.length = phases + entries.length + 1
  /-- With the entries as initial memory, whatever it holds in other cells, the phases lead
  to the registers and the output of the node. In the cells of the entries the memory then
  holds what the node reads there, and the others are untouched. -/
  enough : ∀ {F : Type} [Memory F] [LawfulMemory F] (memory : F),
    (∀ a v, (a, v) ∈ entries → Memory.read memory a = some v) →
      ∃ last, RunsFor lenient phases (startOn memory) last ∧
        InStep (fun a => ∃ v, (a, v) ∈ entries) (Memory.read memory) (machineOf nodes) last
  /-- Where the cell of one of them is undecided the run comes to wait for it. -/
  needed : ∀ {F : Type} [Memory F] [LawfulMemory F] (memory : F) (a v : Word),
    (a, v) ∈ entries → Memory.read memory a = none →
    (∀ b w, (b, w) ∈ entries → b ≠ a → Memory.read memory b = some w) →
      ∃ n last, n ≤ phases ∧ RunsFor lenient n (startOn memory) last ∧
        (step lenient last).1 = .needsDecision a

variable {lenient : Bool} {n phases : Nat} {machine last : Machine F Transcript.Transcript}
variable {nodes : List Node} {entries entries' : List (Word × Word)}

/-- One more phase is run. -/
theorem RunsFor.succ (h : RunsFor lenient n machine last)
    (runs : (step lenient last).1 = .completed .running) :
    RunsFor lenient (n + 1) machine (step lenient last).2 := by
  obtain ⟨hall, rfl⟩ := h
  unfold RunsFor
  rw [calls_add]
  refine ⟨fun outcome hm => ?_, rfl⟩
  rcases List.mem_append.mp hm with hm | hm
  · exact hall outcome hm
  · rw [List.mem_singleton.mp hm, ← runs]

/-- A machine in step with one that waits for a cell waits for it too, as long as it is
undecided there. -/
theorem waits_of_inStep [LawfulMemory F] {decided : Word → Prop} {rest : Word → Option Word}
    {late : LineMachine} {a : Word} (h : InStep decided rest late last)
    (hw : (step lenient late).1 = .needsDecision a) (ha : Memory.read last.memory a = none) :
    (step lenient last).1 = .needsDecision a := by
  rw [step_eq_perform] at hw ⊢
  have he := effect_wait_extends h.extends ha lenient late.registers (perform_needsDecision hw)
  rw [h.registers_eq, he]
  rfl

/-- The order of the entries does not matter. -/
theorem DependsOn.perm (h : DependsOn lenient nodes entries phases)
    (hp : entries.Perm entries') : DependsOn lenient nodes entries' phases := by
  constructor
  case length_eq =>
    rw [← hp.length_eq]
    exact h.length_eq
  case enough =>
    intro F _ _ memory holds
    obtain ⟨last, hruns, hs⟩ := h.enough memory fun a v hm => holds a v (hp.mem_iff.mp hm)
    refine ⟨last, hruns, hs.congr (fun a => ?_) fun _ _ => rfl⟩
    simp only [hp.mem_iff]
  case needed =>
    intro F _ _ memory a v hm hnone holds
    exact h.needed memory a v (hp.mem_iff.mpr hm) hnone
      fun b w hb => holds b w (hp.mem_iff.mp hb)

/-- The run of an explored line depends on its decisions. A cell is decided where the run
would have waited for it, and a phase goes on where it has not. -/
theorem dependsOn_decidedOn (h : Explored lenient nodes) :
    ∃ phases, DependsOn lenient nodes (decidedOn nodes) phases := by
  induction h with
  | root =>
    refine ⟨0, rfl, fun memory _ => ⟨_, ⟨nofun, rfl⟩, ?_⟩, nofun⟩
    refine ⟨rfl, rfl, (Explored.root : Explored lenient _).decided_iff, ?_, fun _ _ => rfl⟩
    rintro a ⟨v, hv⟩
    cases hv
  | @decided node child nodes address instruction before needs decision deeper machine_eq ih =>
    obtain ⟨phases, hdepends⟩ := ih
    have hnew : ¬ ∃ v, (address, v) ∈ decidedOn (node :: nodes) := by
      rw [← before.decided_iff, (step_needsDecision needs).2.1]
      exact Bool.false_ne_true
    rw [decidedOn_some decision]
    refine ⟨phases, ?_, fun memory holds => ?_, fun memory a v hm hnone holds => ?_⟩
    · rw [List.length_cons, hdepends.length_eq, List.length_cons]
      omega
    · obtain ⟨last, hruns, hs⟩ :=
        hdepends.enough memory fun a v hv => holds a v (List.mem_cons_of_mem _ hv)
      refine ⟨last, hruns, ?_⟩
      rw [machine_eq]
      refine (hs.decide hnew (holds _ _ List.mem_cons_self)).congr (fun a => ?_) fun _ _ => rfl
      simp only [List.mem_cons, Prod.mk.injEq, exists_or, exists_and_left, exists_eq, and_true]
      rw [or_comm, eq_comm]
    · rcases List.mem_cons.mp hm with heq | hm
      · -- The run has not come to the new cell before.
        cases heq
        obtain ⟨last, hruns, hs⟩ := hdepends.enough memory fun b w hb => by
          refine holds b w (List.mem_cons_of_mem _ hb) ?_
          rintro rfl
          exact hnew ⟨w, hb⟩
        have hlast : Memory.read last.memory address = none := by rw [hs.rest_eq _ hnew, hnone]
        exact ⟨phases, last, Nat.le_refl _, hruns, waits_of_inStep hs needs hlast⟩
      · exact hdepends.needed memory a v hm hnone
          fun b w hb => holds b w (List.mem_cons_of_mem _ hb)
  | @ran node child nodes before runs decision level machine_eq ih =>
    obtain ⟨phases, hdepends⟩ := ih
    rw [decidedOn_none decision]
    refine ⟨phases + 1, ?_, fun memory holds => ?_, fun memory a v hm hnone holds => ?_⟩
    · rw [List.length_cons, hdepends.length_eq]
      omega
    · obtain ⟨last, hruns, hs⟩ := hdepends.enough memory holds
      rw [machine_eq]
      rcases step_inStep hs lenient with ⟨a, hw, -⟩ | ⟨ho, hs'⟩
      · rw [hw] at runs
        cases runs
      · exact ⟨_, hruns.succ (ho.trans runs), hs'⟩
    · obtain ⟨n, last, hle, hlast⟩ := hdepends.needed memory a v hm hnone holds
      exact ⟨n, last, Nat.le_succ_of_le hle, hlast⟩

end Dependence

section Creation

/-- An expansion that was begun at `origin` and has come to a node creates a child, here or
further on, with the trees before and after. It takes a phase to create a node, or it
decides the cell that the node asks for with each instruction in turn. -/
inductive Creates (target : Target) (origin : NodeId) :
    NodeId → StateTree → NodeId → StateTree → Prop where
  /-- A phase of the node is run. -/
  | stepped {tree tree' : StateTree} {current child : NodeId}
      (ok : transition target.lenient current tree = .ok (.stepped child) tree') :
      Creates target origin current tree child tree'
  /-- The cell that the node asks for is decided, after it was with some instructions. -/
  | decided {tree small middle tree' : StateTree} {current child : NodeId} {kids : List NodeId}
      {address : Word} {done rest : List Instruction} {instruction : Instruction}
      (asks : transition target.lenient current tree = .ok (.needsDecision address) small)
      (split : Instruction.all = done ++ instruction :: rest)
      (before : (done.mapM fun other => decide current address other) small = .ok kids middle)
      (ok : decide current address instruction middle = .ok child tree') :
      Creates target origin current tree child tree'
  /-- A phase of the node is run, the node is given back if it was created on the way, and
  the expansion goes on with the new one. -/
  | onward {tree small after tree' : StateTree} {current next child : NodeId} {node : Node}
      (ok : transition target.lenient current tree = .ok (.stepped next) small)
      (drops : Target.dropBetween origin current small = .ok () after)
      (node_eq : after.node? next = .ok node) (tracks : target.onTrack node.output = true)
      (creates : Creates target origin next after child tree') :
      Creates target origin current tree child tree'

variable {target : Target} {lenient : Bool} {tree tree' : StateTree} {held : Multiset NodeId}
variable {id origin current child : NodeId} {node : Node} {line : List (NodeId × Node)}

/-- Where an operation is made for several instructions in turn, each result comes from one
of them, after those before it. -/
theorem exists_of_mapM {act : Instruction → TreeM NodeId} {instructions : List Instruction}
    {kids : List NodeId} (ok : (instructions.mapM act) tree = .ok kids tree')
    (hm : child ∈ kids) :
    ∃ done instruction rest before middle after, instructions = done ++ instruction :: rest ∧
      (done.mapM act) tree = .ok before middle ∧ act instruction middle = .ok child after := by
  induction instructions generalizing tree kids with
  | nil =>
    cases ok
    cases hm
  | cons instruction instructions ih =>
    rw [List.mapM_cons] at ok
    obtain ⟨first, small, hfirst, ok⟩ := bind_ok ok
    obtain ⟨others, last, hothers, ok⟩ := bind_ok ok
    cases ok
    rcases List.mem_cons.mp hm with rfl | hm
    · exact ⟨[], instruction, instructions, [], tree, small, rfl, rfl, hfirst⟩
    · obtain ⟨done, next, rest, before, middle, after, rfl, hbefore, hnext⟩ := ih hothers hm
      refine ⟨instruction :: done, next, rest, first :: before, middle, after, rfl, ?_, hnext⟩
      simp only [List.mapM_cons, bind, EStateM.bind, hfirst, hbefore, pure, EStateM.pure]

/-- What an expansion answers is the node that it has come to, or it has created it. -/
theorem creates_of_expandFrom {phases : Nat} {expansion : Expansion NodeId}
    (ok : target.expandFrom origin phases current tree = .ok expansion tree') :
    ∀ child ∈ kidsOf expansion ++ goalsOf expansion,
      child = current ∨ ∃ after, Creates target origin current tree child after := by
  induction phases generalizing current tree with
  | zero => cases ok
  | succ phases ih =>
    intro child hm
    rw [Target.expandFrom] at ok
    obtain ⟨answer, small, ht, hrest⟩ := bind_ok ok
    cases answer with
    | stepped next =>
      obtain ⟨_, after, hd, hgoes⟩ := bind_ok hrest
      obtain ⟨node, _, hget, hlast⟩ := bind_ok hgoes
      obtain ⟨hn, rfl⟩ := observe_ok hget
      by_cases htrack : target.onTrack node.output = true
      · rw [if_pos htrack] at hlast
        rcases ih hlast child hm with rfl | ⟨last, hcreates⟩
        · exact .inr ⟨small, .stepped ht⟩
        · exact .inr ⟨last, .onward ht hd hn htrack hcreates⟩
      · rw [if_neg htrack] at hlast
        obtain ⟨_, _, -, hnone⟩ := bind_ok hlast
        cases hnone
        cases hm
    | exited =>
      obtain ⟨node, _, -, hlast⟩ := bind_ok hrest
      by_cases hmet : target.isMet node.output = true
      · refine .inl (List.mem_singleton.mp ?_)
        rw [if_pos hmet] at hlast
        by_cases hc : current = origin
        · rw [if_pos hc] at hlast
          obtain ⟨_, _, -, hgoal⟩ := bind_ok hlast
          cases hgoal
          exact hm
        · rw [if_neg hc] at hlast
          cases hlast
          exact hm
      · rw [if_neg hmet] at hlast
        obtain ⟨_, _, -, hnone⟩ := bind_ok hlast
        cases hnone
        cases hm
    | needsDecision address =>
      obtain ⟨kids, _, hkids, hlast⟩ := bind_ok hrest
      obtain ⟨_, _, -, hanswer⟩ := bind_ok hlast
      cases hanswer
      rw [kidsOf, goalsOf, List.append_nil] at hm
      obtain ⟨done, instruction, rest, before, middle, after, hsplit, hbefore, hd⟩ :=
        exists_of_mapM hkids hm
      exact .inr ⟨after, .decided ht hsplit hbefore hd⟩
    | failed fault =>
      obtain ⟨_, _, -, hnone⟩ := bind_ok hrest
      cases hnone
      cases hm

/-- A node that an expansion creates is in hand in the tree that has it. -/
theorem ground_of_creates (hc : Creates target origin current tree child tree')
    (horigin : origin ∈ held) (h : Ground target.lenient tree (inHand origin current held)) :
    ∃ held', Ground target.lenient tree' (child ::ₘ held') := by
  induction hc with
  | stepped ok => exact ⟨_, stepped_ground h (mem_inHand horigin) ok⟩
  | @decided tree small middle tree' current child kids address done rest instruction asks split
      before ok =>
    obtain ⟨node, line, hline⟩ := h.books.line_of_mem (mem_inHand horigin)
    have needs := needs_of_transition h hline asks
    cases asks.symm.trans (transition_still hline (congrArg standing needs))
    obtain ⟨kids', middle', hk, hg, hkeeps, -⟩ := h.decideAll hline needs done
    cases before.symm.trans hk
    obtain ⟨kid, made, small, hd, hs, hdecision, hdepth, hmachine⟩ :=
      decide_eq hg.books (hkeeps hline) address instruction
    cases ok.symm.trans hd
    exact ⟨_, hg.successor hs
      ((hg.explored (hkeeps hline)).decided instruction needs hdecision hdepth hmachine)⟩
  | @onward tree small after tree' current next child node ok drops node_eq tracks creates ih =>
    obtain ⟨found, line, hline⟩ := h.books.line_of_mem (mem_inHand horigin)
    have hrun := running_of_stepped h hline ok
    obtain ⟨_, made, _, _, ht, hd, -, hg, -⟩ := h.goesOn horigin hline hrun
    cases ok.symm.trans ht
    cases drops.symm.trans hd
    exact ih hg

end Creation

section Shapes

/-- What the path of a node is like: the nodes from it to its root, with their writes. -/
structure Shaped (lenient : Bool) (tree : StateTree) (id : NodeId) (nodes : List Node) :
    Prop where
  /-- The nodes are those of the path. -/
  path_eq : tree.path id = .ok nodes
  /-- The machine that they stand for is in the state of the node. -/
  stands : Stands tree id (machineOf nodes)
  /-- Each cell has one decision at most. -/
  single : ((decidedOn nodes).map Prod.fst).Nodup
  /-- A cell that a phase writes was decided nearer to the root. -/
  nearer : ∀ later child earlier write, nodes = later ++ child :: earlier →
    child.write = some write → write.kind = .mutation →
      write.address ∈ (decidedOn earlier).map Prod.fst
  /-- Every decision is the value of an instruction at its address, and printable. -/
  encoded : ∀ a v, (a, v) ∈ decidedOn nodes →
    (∃ instruction, v = encode a instruction) ∧ isPrintable v = true
  /-- A cell holds what the latest write has put there, which is printable unless a rotation
  or a combination has computed it. -/
  printable : ∀ write earlier, LatestWrite nodes write earlier →
    tree.resolve id write.address = .ok (some write.value) ∧
      (¬ Computed lenient write earlier → isPrintable write.value = true)
  /-- The depth of the node is the number of its decisions, and these are the initial memory
  that its run depends on. -/
  decisions : ∃ node entries phases, tree.node? id = .ok node ∧
    tree.decisions id = .ok entries ∧ entries.Perm (decidedOn nodes) ∧
    node.depth = entries.length ∧ DependsOn lenient nodes entries phases

variable {target : Target} {lenient : Bool} {tree : StateTree} {held : Multiset NodeId}
variable {id : NodeId} {line : List (NodeId × Node)}

/-- The path of every node in a tree of a search has this shape. -/
theorem shaped_of_line (h : Ground lenient tree held) (hline : Line tree id line) :
    Shaped lenient tree id (nodesOf line) := by
  have he := h.explored hline
  obtain ⟨node, rest, rfl, hn⟩ := hline.eq_cons
  obtain ⟨phases, hdepends⟩ := dependsOn_decidedOn he
  have hperm := decisionsOf_perm he
  constructor
  case path_eq => exact hline.pathWithin_eq hline.length_le
  case stands => exact stands_machineOf hline
  case single => exact he.nodup
  case nearer =>
    intro later child earlier write hsplit hw hk
    rw [hsplit] at he
    exact mutated_decided he hw hk
  case encoded =>
    intro a v hm
    obtain ⟨-, instruction, rfl⟩ := he.encoded hm
    exact ⟨⟨instruction, rfl⟩, encode_printable a instruction⟩
  case printable =>
    intro write earlier hlatest
    refine ⟨by rw [hline.resolve_eq, hlatest.read_eq], fun hc => ?_⟩
    obtain ⟨later, child, hsplit, hw, -⟩ := hlatest
    rw [hsplit] at he
    exact written_printable he hw hc
  case decisions =>
    refine ⟨node, _, phases, hn, hline.decisions_eq, hperm, ?_, hdepends.perm hperm.symm⟩
    rw [hperm.length_eq]
    exact he.depth_eq

/-- Every node of a search has a path of this shape, whether it is in a tree that the search
reaches or an expansion creates it on the way. What the expansion answers is among these. -/
theorem search_paths_are_shaped (h : Reached target tree held) :
    (∀ id node, tree.node? id = .ok node → ∃ nodes, Shaped target.lenient tree id nodes) ∧
      ∀ id ∈ held,
        (∀ child tree', Creates target id id tree child tree' →
          ∃ nodes, Shaped target.lenient tree' child nodes) ∧
        ∀ phases expansion tree', target.expandFrom id phases id tree = .ok expansion tree' →
          ∀ child ∈ kidsOf expansion ++ goalsOf expansion,
            child = id ∨ ∃ after, Creates target id id tree child after := by
  have hg := h.ground
  refine ⟨fun id node hn => ?_, fun id hm => ⟨fun child tree' hc => ?_,
    fun phases expansion tree' ok => creates_of_expandFrom ok⟩⟩
  · obtain ⟨line, hline⟩ := hg.books.rooted id (live_iff.mpr ⟨node, hn⟩)
    exact ⟨_, shaped_of_line hg hline⟩
  · have hheld : inHand id id held = held := by rw [inHand, if_pos rfl]
    obtain ⟨held', hg'⟩ := ground_of_creates hc hm (hheld.symm ▸ hg)
    obtain ⟨node, line, hline⟩ := hg'.books.line_of_mem (Multiset.mem_cons_self child held')
    exact ⟨_, shaped_of_line hg' hline⟩

/-- A search for "Hi" that has decided a no-op in the first cell runs two phases in the next
expansion. The second node of these has encrypted the cell, and its path has this shape. -/
theorem search_paths_are_shaped_of_no_op :
    ∃ tree held id child tree' nodes, Reached ⟨[72, 105], true, 0⟩ tree held ∧ id ∈ held ∧
      Creates ⟨[72, 105], true, 0⟩ id id tree child tree' ∧ Shaped true tree' child nodes ∧
      tree'.resolve child 0 = .ok (some 33) := by
  have hleads : follow ⟨[72, 105], true, 0⟩ 1 [.noOp] (machineOf [.root]) =
      some ⟨.initial, ⟨[(0, 68)]⟩, .withoutInput []⟩ := rfl
  obtain ⟨tree, held, id, line, h, hm, hline, hmachine⟩ := reached_of_leads hleads
  obtain ⟨node, rest, rfl, -⟩ := hline.eq_cons
  change machineOf (node :: nodesOf rest) = _ at hmachine
  have hheld : inHand id id held = held := by rw [inHand, if_pos rfl]
  have hfetch : (step true (machineOf (node :: nodesOf rest))).1 = .completed .running := by
    rw [hmachine]
    rfl
  obtain ⟨next, made, small, after, ht, hd, -, hg', -, hline', hmade⟩ :=
    Ground.goesOn (hheld.symm ▸ h.ground) hm hline hfetch
  rw [hmachine] at hmade
  have hadvance : (step true (machineOf (made :: node :: nodesOf rest))).1 =
      .completed .running := by
    rw [hmade]
    rfl
  obtain ⟨child, last, tree', ht', hs, -, -, hlast⟩ := transition_running hg'.books hline' hadvance
  change machineOf (last :: made :: node :: nodesOf rest) =
    (step true (machineOf (made :: node :: nodesOf rest))).2 at hlast
  have htracks : Target.onTrack ⟨[72, 105], true, 0⟩ made.output = true := by
    have houtput := congrArg (fun machine : LineMachine => machine.channel.output) hmade
    change made.output = [] at houtput
    rw [houtput]
    rfl
  have hcreates : Creates ⟨[72, 105], true, 0⟩ id id tree child tree' :=
    .onward ht hd (hline'.node?_of_mem List.mem_cons_self) htracks (.stepped ht')
  obtain ⟨nodes, hshaped⟩ := ((search_paths_are_shaped h).2 id hm).1 child tree' hcreates
  refine ⟨tree, held, id, child, tree', nodes, h, hm, hcreates, hshaped, ?_⟩
  rw [hs.line.resolve_eq]
  change Except.ok (Memory.read (machineOf (last :: made :: node :: nodesOf rest)).memory 0) = _
  rw [hlast, hmade]
  rfl

end Shapes

end TernarySynth.Proofs.PathShape
