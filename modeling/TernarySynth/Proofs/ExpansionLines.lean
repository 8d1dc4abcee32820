import TernarySynth.Proofs.ExpansionEnd

/-!
# The lines of an expansion

An expansion only runs phases between the node that it expands and the nodes that
it leaves behind. So a goal builds on the decisions of the expanded node, and every
child on these and one more: that of the cell that the node asks for.
-/

namespace TernarySynth.Proofs.ExpansionLines

open TritWord CellCode MemoryImage TernarySynth.Cycle StateTree Speculation BeamSearch TargetSearch
open CodeValues PhaseEffect LateDecision TreeLine LineMachine ExploredLine Lookahead NodeExpansion
open TargetLedger ExpansionEnd

variable {target : Target} {tree tree' : StateTree} {held : Multiset NodeId}
variable {id origin current : NodeId} {node child : Node} {nodes : List Node}
variable {line : List (NodeId × Node)} {lenient : Bool} {phases : Nat}

/-- A node that a phase has led to decides nothing. -/
theorem decision_of_runs (h : Explored lenient (child :: node :: nodes))
    (runs : (step lenient (machineOf (node :: nodes))).1 = .completed .running) :
    child.decision = none := by
  cases h with
  | decided instruction before needs decision deeper machine_eq =>
    rw [runs] at needs
    cases needs
  | ran before runs decision level machine_eq => exact decision

/-- A node that stores a value in the cell that is asked for decides it. -/
theorem decision_of_needs {a v : Word} (h : Explored lenient (child :: nodes))
    (needs : (step lenient (machineOf nodes)).1 = .needsDecision a)
    (stored : machineOf (child :: nodes) = (machineOf nodes).store a v) :
    child.decision = some (a, v) := by
  have hread : Memory.read (machineOf (child :: nodes)).memory a = some v := by
    rw [stored, store_eq]
    dsimp only
    rw [PartialMemory.read_write, if_pos rfl]
  generalize hl : child :: nodes = line at h
  cases h with
  | root =>
    cases hl
    cases hread
  | decided instruction before needs' decision deeper machine_eq =>
    cases hl
    cases needs.symm.trans needs'
    rw [machine_eq, store_eq] at hread
    dsimp only at hread
    rw [PartialMemory.read_write, if_pos rfl] at hread
    rw [decision, Option.some.inj hread]
  | ran before runs decision level machine_eq =>
    cases hl
    rw [runs] at needs
    cases needs

/-- What the nodes that an expansion leaves behind build on: a goal has these
decisions on its line, a child has them above itself. -/
def Continues (tree : StateTree) (entries : List (Word × Word)) : Expansion NodeId → Prop
  | .goal goal => ∃ found, Line tree goal found ∧ decidedOn (nodesOf found) = entries
  | .children kids => ∀ kid ∈ kids, ∃ child found, Line tree kid ((kid, child) :: found) ∧
    decidedOn (nodesOf found) = entries

/-- Where there is no child there is nothing to show. -/
theorem continues_nil (entries : List (Word × Word)) :
    Continues tree entries (.children []) :=
  fun _ hm => absurd hm List.not_mem_nil

/-- The nodes that an expansion leaves behind build on the decisions of the node that
it comes from. The induction is on the number of phases. -/
theorem expandFrom_continues (horigin : origin ∈ held) {expansion : Expansion NodeId}
    (h : Ground target.lenient tree (inHand origin current held))
    (hline : Line tree current ((current, node) :: line))
    (ok : target.expandFrom origin phases current tree = .ok expansion tree') :
    Continues tree' (decidedOn (node :: nodesOf line)) expansion := by
  induction phases generalizing tree current node line with
  | zero => cases ok
  | succ phases ih =>
    have hn : tree.node? current = .ok node := hline.node?_of_mem List.mem_cons_self
    cases hout : (step target.lenient (machineOf (node :: nodesOf line))).1 with
    | completed status =>
      cases status with
      | running =>
        obtain ⟨child, made, small, middle, ht, hd, -, hg, -, hline', -⟩ :=
          h.goesOn horigin hline hout
        have hn' : middle.node? child = .ok made := hline'.node?_of_mem List.mem_cons_self
        simp only [Target.expandFrom, bind, EStateM.bind, ht, hd, StateTree.get, observe, hn'] at ok
        by_cases htrack : target.onTrack made.output = true
        · rw [if_pos htrack] at ok
          have hrest := ih hg hline' ok
          rwa [decidedOn_none (decision_of_runs (hg.explored hline') hout)] at hrest
        · rw [if_neg htrack] at ok
          obtain ⟨after, hd', -⟩ := hg.dies
          simp only [EStateM.bind, hd', pure, EStateM.pure] at ok
          cases ok
          exact continues_nil _
      | exited =>
        have ht : transition target.lenient current tree = .ok .exited tree :=
          transition_still hline (by rw [hout]; rfl)
        simp only [Target.expandFrom, bind, EStateM.bind, ht, StateTree.get, observe, hn] at ok
        by_cases hmet : target.isMet node.output = true
        · obtain ⟨after, hretain, hsame, -, hline'⟩ := h.succeeds hline
          have hgoal : (.ok (.goal current) after :
              EStateM.Result Breakdown StateTree (Expansion NodeId)) = .ok expansion tree' := by
            rw [← ok, if_pos hmet]
            by_cases hc : current = origin
            · simp only [if_pos hc, EStateM.bind, hretain hc, pure, EStateM.pure]
            · simp only [if_neg hc, hsame hc, pure, EStateM.pure]
          cases hgoal
          exact ⟨_, hline', rfl⟩
        · obtain ⟨after, hd, -⟩ := h.dies
          simp only [if_neg hmet, EStateM.bind, hd, pure, EStateM.pure] at ok
          cases ok
          exact continues_nil _
    | needsDecision address =>
      have ht : transition target.lenient current tree = .ok (.needsDecision address) tree :=
        transition_still hline (by rw [hout]; rfl)
      obtain ⟨kids, small, hb, hg, -, hall⟩ := h.decideAll hline hout Instruction.all
      obtain ⟨after, hd, -, hk⟩ := hg.dropBetween
      simp only [Target.expandFrom, bind, EStateM.bind, ht, Target.branch, hb, hd, pure,
        EStateM.pure] at ok
      cases ok
      intro kid hm
      obtain ⟨instruction, -, made, hmade, -⟩ := exists_of_forall₂ hall.flip hm
      exact ⟨made, _, hk kid (Multiset.mem_add.mpr (.inl (Multiset.mem_coe.mpr hm))) _ hmade, rfl⟩
    | failed fault =>
      have ht : transition target.lenient current tree = .ok (.failed fault) tree :=
        transition_still hline (by rw [hout]; rfl)
      obtain ⟨after, hd, -⟩ := h.dies
      simp only [Target.expandFrom, bind, EStateM.bind, ht, hd, pure, EStateM.pure] at ok
      cases ok
      exact continues_nil _
    | overflowed => exact absurd hout ((h.explored hline).searching.step target.lenient).2.1

/-- A run that asks for a cell ends in a machine that needs it. -/
theorem needs_of_asks {machine last : LineMachine} {a : Word}
    (h : fate target phases machine = some (.asks a last)) :
    (step target.lenient last).1 = .needsDecision a := by
  obtain ⟨-, found, -, -, hs⟩ := fate_eq_some h
  unfold settle at hs
  split at hs
  next =>
    split at hs
    next => cases hs
    next => cases hs
  next address ho =>
    cases hs
    exact ho
  next => cases hs

/-- Among some handles is one whose line has this machine and these decisions. -/
def Among (tree : StateTree) (ids : List NodeId) (machine : LineMachine)
    (entries : List (Word × Word)) : Prop :=
  ∃ id ∈ ids, ∃ found, Line tree id found ∧ machineOf (nodesOf found) = machine ∧
    decidedOn (nodesOf found) = entries

/-- It still is where all of them mean the same. -/
theorem Among.mono {ids more : List NodeId} {machine : LineMachine} {entries : List (Word × Word)}
    (h : Among tree ids machine entries) (sub : ids ⊆ more) (keeps : Keeps ids tree tree') :
    Among tree' more machine entries := by
  obtain ⟨id, hm, found, hfound, hrest⟩ := h
  exact ⟨id, sub hm, found, keeps id (Multiset.mem_coe.mpr hm) found hfound, hrest⟩

variable {last : LineMachine}

/-- An expansion of a node that asks for a cell has a child for every instruction,
with one decision more. -/
theorem expand_asks (h : Ground target.lenient tree held) (hm : id ∈ held)
    (hline : Line tree id line) {a : Word}
    (asks : fate target phases (machineOf (nodesOf line)) = some (.asks a last)) :
    ∃ kids tree', target.expandFrom id phases id tree = .ok (.children kids) tree' ∧
      Leaves target.lenient tree tree' kids held ∧
      ∀ instruction, Among tree' kids (last.store a (encode a instruction))
        ((a, encode a instruction) :: decidedOn (nodesOf line)) := by
  obtain ⟨node, rest, rfl, -⟩ := hline.eq_cons
  have hground : Ground target.lenient tree (inHand id id held) := by
    rwa [inHand, if_pos rfl]
  obtain ⟨line', hline', he⟩ := expandFrom_of_mem h hm phases
  rw [hline'.unique hline, asks] at he
  obtain ⟨kids, found, tree', ok, hleaves, hlast, hall⟩ := he
  refine ⟨kids, tree', ok, hleaves, fun instruction => ?_⟩
  obtain ⟨kid, hkid, child, hchild, hstored⟩ := exists_of_forall₂ hall (mem_all instruction)
  obtain ⟨child', found', hchild', hentries⟩ := expandFrom_continues hm hground hline ok kid hkid
  cases hchild.unique hchild'
  have needs := needs_of_asks asks
  rw [← hlast] at needs
  have hdecision := decision_of_needs (hleaves.ground.explored hchild) needs hstored
  refine ⟨kid, hkid, _, hchild, ?_, ?_⟩
  · rw [← hlast]
    exact hstored
  · rw [nodesOf, List.map_cons, decidedOn_some hdecision]
    exact congrArg (_ :: ·) hentries

/-- An expansion of a node that succeeds has a goal with the same decisions. -/
theorem expand_succeeds (h : Ground target.lenient tree held) (hm : id ∈ held)
    (hline : Line tree id line)
    (succeeds : fate target phases (machineOf (nodesOf line)) = some (.succeeds last)) :
    ∃ goal tree', target.expandFrom id phases id tree = .ok (.goal goal) tree' ∧
      Leaves target.lenient tree tree' {goal} held ∧
      Among tree' [goal] last (decidedOn (nodesOf line)) := by
  obtain ⟨node, rest, rfl, -⟩ := hline.eq_cons
  have hground : Ground target.lenient tree (inHand id id held) := by
    rwa [inHand, if_pos rfl]
  obtain ⟨line', hline', he⟩ := expandFrom_of_mem h hm phases
  rw [hline'.unique hline, succeeds] at he
  obtain ⟨goal, found, tree', ok, hleaves, hfound, hlast⟩ := he
  obtain ⟨found', hfound', hentries⟩ := expandFrom_continues hm hground hline ok
  cases hfound.unique hfound'
  exact ⟨goal, tree', ok, hleaves, goal, List.mem_singleton_self goal, found, hfound, hlast,
    hentries⟩

end TernarySynth.Proofs.ExpansionLines
