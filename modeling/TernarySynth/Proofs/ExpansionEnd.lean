import Mathlib
import TernarySynth.Proofs.TargetLedger

/-!
# Which expansions end

The loop that expands a node has no bound of its own. It ends for exactly those
nodes whose run does not come back to a state that it was in before, and a round
reaches its end if and only if this holds for every node of its frontier. Runs
that come back without printing anything do exist, and a search gets to them.
-/

namespace TernarySynth.Proofs.ExpansionEnd

open TritWord CellCode MemoryImage SparseMemory TernarySynth.Cycle RandomSource StateTree
open BeamSearch TargetSearch
open CodeValues LateDecision TreeLine HolderBooks LineMachine WordRange ExploredLine Lookahead
open NodeExpansion RoundLedger TargetLedger

/-- The trees that come about when a root is expanded, then any of the nodes in
hand, and so on, and nodes in hand are given back. -/
inductive Reached (target : Target) : StateTree → Multiset NodeId → Prop where
  /-- First there is a root. -/
  | root {id : NodeId} {tree : StateTree} (made : root StateTree.empty = .ok id tree) :
      Reached target tree {id}
  /-- A node in hand is expanded, and its children are in hand. -/
  | children {tree tree' : StateTree} {held : Multiset NodeId} {id : NodeId}
      {kids : List NodeId} (before : Reached target tree held) (mem : id ∈ held) (phases : Nat)
      (expanded : target.expandFrom id phases id tree = .ok (.children kids) tree') :
      Reached target tree' (kids + held)
  /-- A node in hand is expanded, and a goal is in hand. -/
  | goal {tree tree' : StateTree} {held : Multiset NodeId} {id goal : NodeId}
      (before : Reached target tree held) (mem : id ∈ held) (phases : Nat)
      (expanded : target.expandFrom id phases id tree = .ok (.goal goal) tree') :
      Reached target tree' (goal ::ₘ held)
  /-- A node in hand is given back. -/
  | release {tree tree' : StateTree} {held : Multiset NodeId} {id : NodeId}
      (before : Reached target tree (id ::ₘ held)) (released : release id tree = .ok () tree') :
      Reached target tree' held

/-- A machine that is in the state of a node: the same registers, the same
output, and every cell as the node reads it. -/
structure Stands (tree : StateTree) (id : NodeId) (machine : LineMachine) : Prop where
  /-- Registers and output are those of the node; there is no input. -/
  node : ∃ node, tree.node? id = .ok node ∧ machine.registers = node.registers ∧
    machine.channel = .withoutInput node.output
  /-- A cell holds what the node reads. -/
  resolve : ∀ a, tree.resolve id a = .ok (Memory.read machine.memory a)

variable {target : Target} {tree tree' : StateTree} {held more : Multiset NodeId} {id : NodeId}
variable {line : List (NodeId × Node)} {machine other : LineMachine}

/-- A search has every tree in hand that it reaches. -/
theorem Reached.ground (h : Reached target tree held) : Ground target.lenient tree held := by
  induction h with
  | root made =>
    obtain ⟨_, _, hr, hg, -⟩ := root_ground target.lenient
    cases made.symm.trans hr
    exact hg
  | children before mem phases expanded ih => exact (leaves_children ih mem expanded).ground
  | goal before mem phases expanded ih =>
    rw [← Multiset.singleton_add]
    exact (leaves_goal ih mem expanded).1.ground
  | release before released ih =>
    obtain ⟨_, hr, hg, -⟩ := ih.release
    cases released.symm.trans hr
    exact hg

/-- The machine of its line is in the state of a node. -/
theorem stands_machineOf (h : Line tree id line) : Stands tree id (machineOf (nodesOf line)) := by
  obtain ⟨node, rest, rfl, hn⟩ := h.eq_cons
  exact ⟨⟨node, hn, rfl, rfl⟩, h.resolve_eq⟩

/-- Any other machine in the state of the node is alike. -/
theorem Stands.alike (hs : Stands tree id machine) (h : Line tree id line) :
    Alike (machineOf (nodesOf line)) machine := by
  obtain ⟨⟨node, hn, hr, hc⟩, hres⟩ := hs
  obtain ⟨⟨node', hn', hr', hc'⟩, hres'⟩ := stands_machineOf h
  cases hn.symm.trans hn'
  refine ⟨hr.trans hr'.symm, hc.trans hc'.symm, fun a => ?_⟩
  exact Except.ok.inj ((hres a).symm.trans (hres' a))

/-- Alike machines recur alike. -/
theorem recurs_of_alike (h : Alike machine other) (hr : Recurs target machine) :
    Recurs target other := by
  obtain ⟨i, j, one, two, hij, hi, hj, halike⟩ := hr
  obtain ⟨one', hi', hone⟩ := alike_ahead h hi
  obtain ⟨two', hj', htwo⟩ := alike_ahead h hj
  exact ⟨i, j, one', two', hij, hi', hj', (hone.symm.trans halike).trans htwo⟩

/-- Whether the run of a node recurs does not depend on the machine that is
taken for it. -/
theorem Stands.recurs_iff (hs : Stands tree id machine) (h : Line tree id line) :
    Recurs target machine ↔ Recurs target (machineOf (nodesOf line)) :=
  ⟨recurs_of_alike (hs.alike h).symm, recurs_of_alike (hs.alike h)⟩

/-- An expansion ends within a number of phases if its fate is settled by then. -/
theorem expansion_ends_iff_fate (h : Ground target.lenient tree held) (hm : id ∈ held)
    (hline : Line tree id line) (phases : Nat) :
    (∃ expansion tree', target.expandFrom id phases id tree = .ok expansion tree') ↔
      fate target phases (machineOf (nodesOf line)) ≠ none := by
  obtain ⟨line', hline', he⟩ := expandFrom_of_mem h hm phases
  rw [hline'.unique hline] at he
  rcases he.answers with ⟨hf, _, ha⟩ | ⟨hf, expansion, tree', _, ha, -⟩
  · simp only [ha, hf, reduceCtorEq, exists_false, ne_eq, not_true_eq_false]
  · exact iff_of_true ⟨expansion, tree', ha⟩ hf

section Rounds

/-- Handles in hand can be given back in any order. -/
theorem releaseAll_ok {nodes : List NodeId} (h : Ground target.lenient tree (nodes + held)) :
    ∃ tree', target.policy.releaseAll nodes tree = .ok tree' := by
  induction nodes generalizing tree with
  | nil => exact ⟨tree, rfl⟩
  | cons node nodes ih =>
    rw [← Multiset.cons_coe, Multiset.cons_add] at h
    obtain ⟨middle, hr, hg, -⟩ := h.release
    obtain ⟨tree', ha⟩ := ih hg
    refine ⟨tree', ?_⟩
    have hp : target.policy.release tree node = .ok middle := by
      simp only [Target.policy, hr, outcome, Except.map]
    simp only [Policy.releaseAll, hp, ha]

/-- Every node in hand has a score. -/
theorem scoreAll_ok (h : Ground target.lenient tree held) {nodes : List NodeId}
    (hm : ∀ id ∈ nodes, id ∈ held) (scored : Array (Int × NodeId)) :
    ∃ scored', target.policy.scoreAll tree nodes scored = .ok scored' := by
  induction nodes generalizing scored with
  | nil => exact ⟨scored, rfl⟩
  | cons node nodes ih =>
    obtain ⟨found, line, hline⟩ := h.books.line_of_mem (hm node List.mem_cons_self)
    have hn : tree.node? node = .ok found := hline.node?_of_mem List.mem_cons_self
    have hp : target.policy.score tree node = .ok (rank found) := by
      simp only [Target.policy, score, hn]
    obtain ⟨scored', ha⟩ := ih (fun id hid => hm id (List.mem_cons_of_mem _ hid))
      (scored.push (rank found, node))
    exact ⟨scored', by simp only [Policy.scoreAll, hp, ha]⟩

/-- Nodes in hand are harvested if and only if the fates of all of them are
settled within the phases that each may run. -/
theorem harvest_ok_iff {nodes : List NodeId} (h : Ground target.lenient tree (nodes + held))
    (found : Harvest NodeId) :
    (∃ result, target.policy.harvest nodes found tree = .ok result) ↔
      ∀ id ∈ nodes, ∀ line, Line tree id line →
        fate target target.phaseLimit (machineOf (nodesOf line)) ≠ none := by
  induction nodes generalizing tree held found with
  | nil => simp only [Policy.harvest, Except.ok.injEq, exists_eq', List.not_mem_nil,
      false_imp_iff, implies_true]
  | cons node nodes ih =>
    rw [← Multiset.cons_coe, Multiset.cons_add] at h
    obtain ⟨line, hline, he⟩ := expandFrom_of_mem h (Multiset.mem_cons_self node _)
      target.phaseLimit
    rcases he.answers with ⟨hf, _, ha⟩ | ⟨hf, expansion, middle, new, ha, hl⟩
    · have hp : target.policy.expand tree node = .error .unfinished := by
        simp only [Target.policy, Target.expand, ha, outcome]
      simp only [Policy.harvest, hp, reduceCtorEq, exists_false, false_iff, not_forall]
      exact ⟨node, List.mem_cons_self, line, hline, not_not.mpr hf⟩
    · have hg := hl.ground
      rw [Multiset.add_cons] at hg
      obtain ⟨after, hr, hg', hk⟩ := hg.release
      have hp : target.policy.expand tree node = .ok (expansion, middle) := by
        simp only [Target.policy, Target.expand, ha, outcome]
      have hp' : target.policy.release middle node = .ok after := by
        simp only [Target.policy, hr, outcome, Except.map]
      have hkeeps : Keeps (nodes + held) tree after := by
        refine Keeps.trans ?_ (hk.of_le (Multiset.le_add_left _ _))
        exact hl.keeps.of_le (Multiset.le_cons_self _ node)
      have hlines : ∀ id ∈ nodes, ∀ found, Line after id found ↔ Line tree id found :=
        fun id hid found => hkeeps.line_iff h (Multiset.le_cons_self _ node)
          (Multiset.mem_add.mpr (.inl (Multiset.mem_coe.mpr hid)))
      rw [add_left_comm] at hg'
      simp only [Policy.harvest, hp, hp', List.mem_cons, forall_eq_or_imp]
      rw [ih hg']
      constructor
      · intro hrest
        refine ⟨fun line' hline' => ?_, fun id hid found hfound => ?_⟩
        · rw [hline'.unique hline]
          exact hf
        · exact hrest id hid found ((hlines id hid found).mpr hfound)
      · rintro ⟨-, hrest⟩ id hid found hfound
        exact hrest id hid found ((hlines id hid found).mp hfound)

/-- A round reaches its end if and only if the fates of the nodes of its frontier
are settled within the phases that each may run. -/
theorem searchRound_ok_iff {G : Type} [RandomSource G]
    {searcher : Searcher StateTree NodeId G} {goals : Multiset NodeId}
    (h : Holds target searcher.state searcher.frontier goals) :
    (∃ result, searcher.searchRound target.policy = .ok result) ↔
      ∀ id ∈ searcher.frontier, ∀ line, Line searcher.state id line →
        fate target target.phaseLimit (machineOf (nodesOf line)) ≠ none := by
  obtain ⟨width, state, frontier, round, source⟩ := searcher
  rw [← harvest_ok_iff h.ground .empty]
  constructor
  · rintro ⟨result, ok⟩
    rw [Searcher.searchRound] at ok
    split at ok
    next => cases ok
    next harvest middle hh => exact ⟨_, hh⟩
  · rintro ⟨⟨harvest, middle⟩, hh⟩
    rw [← add_zero (frontier : Multiset NodeId)] at h
    have hground := ((target_kept target).harvest_empty h hh).ground
    rw [add_zero] at hground
    have hpool : ∀ id ∈ harvest.pool.toList,
        id ∈ (harvest.pool.toList : Multiset NodeId) + (harvest.goals.toList + goals) :=
      fun id hm => Multiset.mem_add.mpr (.inl (Multiset.mem_coe.mpr hm))
    obtain ⟨scored, hs⟩ := scoreAll_ok hground hpool #[]
    rw [selection_eq hs width source, add_assoc] at hground
    obtain ⟨after, hr⟩ := releaseAll_ok hground
    refine ⟨(harvest.goals.toList, ⟨width, after,
      (select width (rankByScore scored.toList) source).1.kept, round + 1,
      (select width (rankByScore scored.toList) source).2⟩), ?_⟩
    simp only [Searcher.searchRound, hh, hs, hr]

end Rounds

section Bounds

/-- The same target with another bound on the phases of an expansion. -/
def within (target : Target) (phases : Nat) : Target := ⟨target.bytes, target.lenient, phases⟩

/-- Looking ahead has a bound of its own. -/
theorem ahead_within (phases bound : Nat) :
    ahead (within target bound) phases machine = ahead target phases machine := by
  induction phases generalizing machine with
  | zero => rfl
  | succ phases ih =>
    simp only [ahead]
    change (onward target machine).bind _ = _
    cases onward target machine with
    | none => rfl
    | some next => exact ih

/-- So has the fate of a machine. -/
theorem fate_within (phases bound : Nat) :
    fate (within target bound) phases machine = none ↔ fate target phases machine = none := by
  rw [fate_eq_none_iff, fate_eq_none_iff, ahead_within]

/-- And so has the ledger of a search. -/
theorem holds_within {candidates goals : Multiset NodeId} (bound : Nat) :
    Holds (within target bound) tree candidates goals ↔ Holds target tree candidates goals :=
  ⟨fun h => ⟨h.ground, h.isGoal⟩, fun h => ⟨h.ground, h.isGoal⟩⟩

variable {G : Type} [RandomSource G]

/-- The searches for a target that are under way: they start at a root and run
rounds, of which each may take its own bound on the phases of an expansion. -/
inductive Underway (target : Target) : Searcher StateTree NodeId G → Prop where
  /-- The search begins with a root. -/
  | start {width : Nat} {top : NodeId} {tree : StateTree} {source : G}
      {searcher : Searcher StateTree NodeId G} (made : root StateTree.empty = .ok top tree)
      (begins : Searcher.ofRoot width tree top source = .ok searcher) : Underway target searcher
  /-- A round is run. -/
  | round {searcher searcher' : Searcher StateTree NodeId G} {goals : List NodeId}
      (before : Underway target searcher) (phases : Nat)
      (ran : searcher.searchRound (within target phases).policy = .ok (goals, searcher')) :
      Underway target searcher'

/-- A search that is under way has its frontier in hand. -/
theorem Underway.holds {searcher : Searcher StateTree NodeId G} (h : Underway target searcher) :
    ∃ goals, Holds target searcher.state searcher.frontier goals := by
  induction h with
  | start made begins => exact ⟨0, (holds_ofRoot target made begins).1⟩
  | @round searcher searcher' goals before phases ran ih =>
    obtain ⟨old, h⟩ := ih
    have hround := ((holds_within phases).mpr h).searchRound ran
    exact ⟨_, (holds_within phases).mp hround⟩

/-- There is one bound within which the fates of finitely many nodes are
settled, if each of them is settled within some bound. -/
theorem exists_common_bound {α : Type} {nodes : List α} {settled : Nat → α → Prop}
    (mono : ∀ {i j node}, i ≤ j → settled i node → settled j node)
    (h : ∀ node ∈ nodes, ∃ phases, settled phases node) :
    ∃ phases, ∀ node ∈ nodes, settled phases node := by
  induction nodes with
  | nil => exact ⟨0, nofun⟩
  | cons node nodes ih =>
    obtain ⟨i, hi⟩ := h node List.mem_cons_self
    obtain ⟨j, hj⟩ := ih fun other hm => h other (List.mem_cons_of_mem _ hm)
    refine ⟨max i j, fun other hm => ?_⟩
    rcases List.mem_cons.mp hm with rfl | hm
    · exact mono (Nat.le_max_left i j) hi
    · exact mono (Nat.le_max_right i j) (hj other hm)

end Bounds

/-- The run of a node in hand is settled within some number of phases, unless it
recurs. -/
theorem settles_of_ground (h : Ground target.lenient tree held) (hline : Line tree id line) :
    (∃ phases, fate target phases (machineOf (nodesOf line)) ≠ none) ↔
      ¬ Recurs target (machineOf (nodesOf line)) := by
  rw [← settles_iff_not_recurs (h.explored hline).searching]
  simp only [Option.ne_none_iff_exists']

/-- The expansion of a node that a search has reached ends if and only if its run
does not come back to a state that it was in before. Accordingly a round of a
search that is under way reaches the next boundary if and only if the run of no
node of the frontier does: the source answers what it is asked, so a shuffle ends. -/
theorem expansion_ends_iff_not_recurs (target : Target) :
    (∀ {tree : StateTree} {held : Multiset NodeId} {id : NodeId} {machine : LineMachine},
      Reached target tree held → id ∈ held → Stands tree id machine →
      ((∃ phases expansion tree', target.expandFrom id phases id tree = .ok expansion tree') ↔
        ¬ Recurs target machine)) ∧
    ∀ {G : Type} [RandomSource G] {searcher : Searcher StateTree NodeId G},
      Underway target searcher →
      ((∃ phases result, searcher.searchRound (within target phases).policy = .ok result) ↔
        ∀ id ∈ searcher.frontier, ∀ machine, Stands searcher.state id machine →
          ¬ Recurs target machine) := by
  constructor
  · intro tree held id machine h hm hs
    obtain ⟨node, line, hline⟩ := h.ground.books.line_of_mem hm
    rw [hs.recurs_iff hline, ← settles_of_ground h.ground hline]
    simp only [expansion_ends_iff_fate h.ground hm hline]
  · intro G _ searcher h
    obtain ⟨goals, hh⟩ := h.holds
    have hround : ∀ phases,
        (∃ result, searcher.searchRound (within target phases).policy = .ok result) ↔
          ∀ id ∈ searcher.frontier, ∀ line, Line searcher.state id line →
            fate target phases (machineOf (nodesOf line)) ≠ none := by
      intro phases
      rw [searchRound_ok_iff ((holds_within phases).mpr hh)]
      simp only [ne_eq, fate_within]
      rfl
    simp only [hround]
    have hmem : ∀ id ∈ searcher.frontier, id ∈ (searcher.frontier : Multiset NodeId) + goals :=
      fun id hm => Multiset.mem_add.mpr (.inl (Multiset.mem_coe.mpr hm))
    constructor
    · rintro ⟨phases, hall⟩ id hm machine hs
      obtain ⟨node, line, hline⟩ := hh.ground.books.line_of_mem (hmem id hm)
      rw [hs.recurs_iff hline, ← settles_of_ground hh.ground hline]
      exact ⟨phases, hall id hm _ hline⟩
    · intro hall
      refine exists_common_bound ?_ fun id hm => ?_
      · intro i j id hij hi line hline
        obtain ⟨found, hf⟩ := Option.ne_none_iff_exists'.mp (hi line hline)
        rw [fate_mono hij hf]
        nofun
      · obtain ⟨node, line, hline⟩ := hh.ground.books.line_of_mem (hmem id hm)
        have hnot := hall id hm _ (stands_machineOf hline)
        obtain ⟨phases, hf⟩ := (settles_of_ground hh.ground hline).mpr hnot
        refine ⟨phases, fun line' hline' => ?_⟩
        rw [hline'.unique hline]
        exact hf

section Following

/-- Where a search gets from a machine when it always decides the cell that is
asked for by the next of these instructions. -/
def follow (target : Target) (phases : Nat) : List Instruction → LineMachine → Option LineMachine
  | [], machine => some machine
  | instruction :: instructions, machine =>
    match fate target phases machine with
    | some (.asks address last) =>
      follow target phases instructions (last.store address (encode address instruction))
    | _ => none

/-- Every member of the first list is related to one of the second. -/
theorem exists_of_forall₂ {α β : Type} {R : α → β → Prop} {xs : List α} {ys : List β}
    (h : List.Forall₂ R xs ys) {x : α} (hx : x ∈ xs) : ∃ y ∈ ys, R x y := by
  induction h with
  | nil => cases hx
  | cons hr _ ih =>
    rcases List.mem_cons.mp hx with rfl | hx
    · exact ⟨_, List.mem_cons_self, hr⟩
    · obtain ⟨y, hy, hry⟩ := ih hx
      exact ⟨y, List.mem_cons_of_mem _ hy, hry⟩

/-- A search gets wherever its decisions can lead. -/
theorem reached_follow {phases : Nat} {instructions : List Instruction} {last : LineMachine}
    (h : Reached target tree held) (hm : id ∈ held) (hline : Line tree id line)
    (hf : follow target phases instructions (machineOf (nodesOf line)) = some last) :
    ∃ tree' held' id' line', Reached target tree' held' ∧ id' ∈ held' ∧ Line tree' id' line' ∧
      machineOf (nodesOf line') = last := by
  induction instructions generalizing tree held id line with
  | nil =>
    cases hf
    exact ⟨tree, held, id, line, h, hm, hline, rfl⟩
  | cons instruction instructions ih =>
    rw [follow] at hf
    split at hf
    next address middle hfate =>
      obtain ⟨line', hline', he⟩ := expandFrom_of_mem h.ground hm phases
      rw [hline'.unique hline, hfate] at he
      obtain ⟨kids, found, tree', ha, -, hmachine, hall⟩ := he
      obtain ⟨kid, hkid, child, hchild, hstore⟩ := exists_of_forall₂ hall (mem_all instruction)
      refine ih (h.children hm phases ha) (Multiset.mem_add.mpr (.inl (Multiset.mem_coe.mpr hkid)))
        hchild ?_
      rw [hmachine] at hstore
      change follow target phases instructions (machineOf (child :: nodesOf found)) = some last
      rw [hstore]
      exact hf
    next => cases hf

/-- So it gets wherever they lead from the root, -/
theorem reached_of_leads {phases : Nat} {instructions : List Instruction}
    (leads : follow target phases instructions (machineOf [.root]) = some machine) :
    ∃ tree held id line, Reached target tree held ∧ id ∈ held ∧ Line tree id line ∧
      machineOf (nodesOf line) = machine := by
  obtain ⟨top, start, hr, -, htop⟩ := root_ground target.lenient
  have hroot : Reached target start {top} := .root hr
  exact reached_follow hroot (Multiset.mem_singleton_self top) htop leads

/-- and expands the node there if its run settles. -/
theorem expanded_of_leads {phases : Nat} {instructions : List Instruction}
    (leads : follow target phases instructions (machineOf [.root]) = some machine)
    (settles : fate target phases machine ≠ none) :
    ∃ tree held id expansion tree', Reached target tree held ∧ id ∈ held ∧
      Stands tree id machine ∧ target.expandFrom id phases id tree = .ok expansion tree' := by
  obtain ⟨tree, held, id, line, h, hm, hline, rfl⟩ := reached_of_leads leads
  obtain ⟨expansion, tree', ok⟩ := (expansion_ends_iff_fate h.ground hm hline phases).mpr settles
  exact ⟨tree, held, id, expansion, tree', h, hm, stands_machineOf hline, ok⟩

end Following

/-- After a no-op in the first cell the run of a search for "Hi" takes two phases to an
undecided cell, so it does not recur. After its first round such a search has a node for
every instruction, and since its second round returns the run of none of them recurs. -/
theorem expansion_ends_iff_not_recurs_of_no_op :
    (∃ tree held id, Reached ⟨[72, 105], true, 0⟩ tree held ∧ id ∈ held ∧
      Stands tree id ((machineOf [.root]).store 0 (encode 0 .noOp)) ∧
      ¬ Recurs ⟨[72, 105], true, 0⟩ ((machineOf [.root]).store 0 (encode 0 .noOp))) ∧
    ∃ searcher : Searcher StateTree NodeId Generator,
      Underway ⟨[72, 105], true, 0⟩ searcher ∧ searcher.round = 2 ∧
      searcher.frontier.length = 8 ∧
      ∀ id ∈ searcher.frontier, ∀ machine, Stands searcher.state id machine →
        ¬ Recurs ⟨[72, 105], true, 0⟩ machine := by
  let target : Target := ⟨[72, 105], true, 0⟩
  constructor
  · have hleads : follow target 3 [.noOp] (machineOf [.root]) =
        some ((machineOf [.root]).store 0 (encode 0 .noOp)) := rfl
    obtain ⟨tree, held, id, expansion, tree', h, hm, hs, ok⟩ := expanded_of_leads hleads nofun
    exact ⟨tree, held, id, h, hm, hs,
      ((expansion_ends_iff_not_recurs target).1 h hm hs).mp ⟨3, expansion, tree', ok⟩⟩
  · obtain ⟨top, start, hr, -, -⟩ := root_ground true
    let begun : Searcher StateTree NodeId Generator := ⟨8, start, [top], 1, Generator.ofNumbers []⟩
    have hbegins : Searcher.ofRoot 8 start top (Generator.ofNumbers []) = .ok begun := rfl
    have hbegun : Underway target begun := .start hr hbegins
    have hrounds : ((begun.searchRound (within target 6).policy).bind fun first =>
        (first.2.searchRound (within target 6).policy).map fun _ =>
          (first.2.round, first.2.frontier.length)).toOption = some (2, 8) := by
      cases hr
      cbv
    obtain ⟨⟨goals, searcher⟩, last, hfirst, hlast, hanswer⟩ := rounds_of_answer hrounds
    obtain ⟨hround, hlength⟩ := Prod.mk.inj hanswer
    have hunderway : Underway target searcher := hbegun.round 6 hfirst
    exact ⟨searcher, hunderway, hround, hlength,
      ((expansion_ends_iff_not_recurs target).2 hunderway).mp ⟨6, last, hlast⟩⟩

section SilentLoop

/-- Memories are alike if they are in all cells that were written in one of
them. -/
theorem read_eq_of_written {memory memory' : SparseMemory}
    (h : ∀ a ∈ (memory.history ++ memory'.history).map Prod.fst,
      Memory.read memory a = Memory.read memory' a) (a : Word) :
    Memory.read memory a = Memory.read memory' a := by
  by_cases ha : a ∈ (memory.history ++ memory'.history).map Prod.fst
  · exact h a ha
  · rw [List.map_append, List.mem_append, not_or] at ha
    rw [Option.not_isSome_iff_eq_none.mp fun hs => ha.1 (mem_history_of_isSome hs),
      Option.not_isSome_iff_eq_none.mp fun hs => ha.2 (mem_history_of_isSome hs)]

/-- A machine of thirteen decisions that runs in a circle. -/
def silentLoop : LineMachine :=
  ⟨⟨0, 61, 38, .fetch⟩,
    ⟨[(38, 60), (61, 37), (60, 70), (60, 74), (59, 70), (59, 74), (39, 59), (42, 56), (41, 98),
      (95, 38), (40, 37), (40, 58), (94, 40), (2, 96), (1, 116), (41, 93), (1, 39), (0, 121),
      (0, 40)]⟩, .withoutInput []⟩

/-- The instructions that lead a search to this machine, in the order in which
their cells are asked for. -/
def silentLoopInstructions : List Instruction :=
  [.moveD, .moveD, .moveD, .jump, .moveD, .jump, .rotateRight, .jump, .jump, .rotateRight, .moveD,
    .jump, .jump]

/-- The decisions lead from the root to the machine. -/
theorem follow_silentLoop :
    follow ⟨[72, 105], true, 0⟩ 4 silentLoopInstructions (machineOf [.root]) =
      some silentLoop := by
  rfl

/-- After twelve phases the machine is in the same state again. -/
theorem silentLoop_recurs : Recurs ⟨[72, 105], true, 0⟩ silentLoop := by
  have hround : ∃ memory, ahead ⟨[72, 105], true, 0⟩ 12 silentLoop =
      some ⟨silentLoop.registers, memory, silentLoop.channel⟩ ∧
      ∀ a ∈ (silentLoop.memory.history ++ memory.history).map Prod.fst,
        Memory.read silentLoop.memory a = Memory.read memory a :=
    ⟨_, rfl, by decide⟩
  obtain ⟨memory, ha, hread⟩ := hround
  exact ⟨0, 12, silentLoop, _, by decide, rfl, ha, rfl, rfl,
    fun a => (read_eq_of_written hread a).symm⟩

end SilentLoop

/-- A search for "Hi" reaches a node whose expansion does not end: after thirteen
decisions its machine runs in a circle. -/
theorem expansion_need_not_end :
    ∃ tree held id, Reached ⟨[72, 105], true, 0⟩ tree held ∧ id ∈ held ∧
      Stands tree id silentLoop ∧
      ¬ ∃ phases expansion tree',
        Target.expandFrom ⟨[72, 105], true, 0⟩ id phases id tree = .ok expansion tree' := by
  obtain ⟨tree, held, id, line, h, hm, hline, hmachine⟩ := reached_of_leads follow_silentLoop
  refine ⟨tree, held, id, h, hm, hmachine ▸ stands_machineOf hline, ?_⟩
  rintro ⟨phases, hends⟩
  rw [expansion_ends_iff_fate h.ground hm hline, hmachine] at hends
  exact hends ((fate_eq_none_iff phases).mpr (silentLoop_recurs.ahead_isSome phases))

end TernarySynth.Proofs.ExpansionEnd
