import Mathlib.Logic.Relation
import TernarySynth.Proofs.RoundYield
import TernarySynth.Proofs.SearchBalance

/-!
# The work of a search on its tree

All that a search does to its tree is to run phases of nodes that it holds, to decide
cells that such nodes ask for, and to take and give back handles. An expansion is a
sequence of these operations, also one that does not come to an end, and so are a round
and a run. So what every single operation keeps holds of every tree that a search works
on, and of every node that it creates.
-/

namespace TernarySynth.Proofs.SearchWork

open TritWord CellCode MemoryImage TernarySynth.Cycle RandomSource StateTree Speculation
open BeamSearch TargetSearch
open WordRange TreeLine HolderBooks LineMachine ExploredLine NodeExpansion RoundLedger
open TargetLedger ExpansionEnd RoundYield SearchBalance

variable {lenient : Bool} {target : Target} {tree tree' : StateTree}
variable {held held' more goals : Multiset NodeId} {id origin current : NodeId} {node : Node}
variable {line : List (NodeId × Node)}

/-- One operation of a search, with the tree and the handles in use before and after. -/
inductive Work (lenient : Bool) : StateTree × Multiset NodeId → StateTree × Multiset NodeId →
    Prop where
  /-- A phase of a node in hand is run. -/
  | ran {tree tree' : StateTree} {held : Multiset NodeId} {id child : NodeId} (mem : id ∈ held)
      (ok : transition lenient id tree = .ok (.stepped child) tree') :
      Work lenient (tree, held) (tree', child ::ₘ held)
  /-- A cell that a node in hand asks for is decided. -/
  | decided {tree tree' : StateTree} {held : Multiset NodeId} {id child : NodeId} {address : Word}
      (instruction : Instruction) (mem : id ∈ held)
      (asks : transition lenient id tree = .ok (.needsDecision address) tree)
      (ok : decide id address instruction tree = .ok child tree') :
      Work lenient (tree, held) (tree', child ::ₘ held)
  /-- One more handle is taken. -/
  | retained {tree tree' : StateTree} {held : Multiset NodeId} {id : NodeId} (mem : id ∈ held)
      (ok : retain id tree = .ok () tree') : Work lenient (tree, held) (tree', id ::ₘ held)
  /-- A handle is given back. -/
  | released {tree tree' : StateTree} {held : Multiset NodeId} {id : NodeId}
      (ok : release id tree = .ok () tree') : Work lenient (tree, id ::ₘ held) (tree', held)

/-- Any number of operations after each other. -/
def Works (lenient : Bool) : StateTree × Multiset NodeId → StateTree × Multiset NodeId → Prop :=
  Relation.ReflTransGen (Work lenient)

/-- The trees that a search works on, with the handles in use: it begins with a root. -/
def Worked (lenient : Bool) (tree : StateTree) (held : Multiset NodeId) : Prop :=
  ∃ top first, root StateTree.empty = .ok top first ∧ Works lenient (first, {top}) (tree, held)

section Operations

/-- A phase that makes a child completes. -/
theorem running_of_stepped {child : NodeId} (h : Ground lenient tree held)
    (hline : Line tree id ((id, node) :: line))
    (ok : transition lenient id tree = .ok (.stepped child) tree') :
    (step lenient (machineOf (node :: nodesOf line))).1 = .completed .running := by
  cases hout : (step lenient (machineOf (node :: nodesOf line))).1 with
  | completed status =>
    cases status with
    | running => rfl
    | exited => cases ok.symm.trans (transition_still hline (congrArg standing hout))
  | needsDecision address => cases ok.symm.trans (transition_still hline (congrArg standing hout))
  | failed fault => cases ok.symm.trans (transition_still hline (congrArg standing hout))
  | overflowed => exact absurd hout ((h.explored hline).searching.step lenient).2.1

/-- A node in hand that runs a phase goes on in hand. -/
theorem stepped_ground {child : NodeId} (h : Ground lenient tree held) (hm : id ∈ held)
    (ok : transition lenient id tree = .ok (.stepped child) tree') :
    Ground lenient tree' (child ::ₘ held) := by
  obtain ⟨node, line, hline⟩ := h.books.line_of_mem hm
  have hout := running_of_stepped h hline ok
  obtain ⟨other, made, small, ht, hs, hdecision, hdepth, hmachine⟩ :=
    transition_running h.books hline hout
  cases ok.symm.trans ht
  exact h.successor hs ((h.explored hline).ran hout hdecision hdepth hmachine)

/-- A node in hand that asks for a cell reads that cell in its next phase. -/
theorem needs_of_transition {address : Word} (h : Ground lenient tree held)
    (hline : Line tree id ((id, node) :: line))
    (asks : transition lenient id tree = .ok (.needsDecision address) tree') :
    (step lenient (machineOf (node :: nodesOf line))).1 = .needsDecision address := by
  cases hout : (step lenient (machineOf (node :: nodesOf line))).1 with
  | completed status =>
    cases status with
    | running =>
      obtain ⟨_, _, _, ht, -⟩ := transition_running h.books hline hout
      cases asks.symm.trans ht
    | exited => cases asks.symm.trans (transition_still hline (congrArg standing hout))
  | needsDecision other =>
    cases asks.symm.trans (transition_still hline (congrArg standing hout))
    rfl
  | failed fault => cases asks.symm.trans (transition_still hline (congrArg standing hout))
  | overflowed => exact absurd hout ((h.explored hline).searching.step lenient).2.1

/-- An operation leads from a tree in hand to another one. -/
theorem Work.ground {before after : StateTree × Multiset NodeId} (h : Work lenient before after)
    (hground : Ground lenient before.1 before.2) : Ground lenient after.1 after.2 := by
  cases h with
  | ran mem ok => exact stepped_ground hground mem ok
  | @decided tree tree' held id child address instruction mem asks ok =>
    obtain ⟨node, line, hline⟩ := hground.books.line_of_mem mem
    have needs := needs_of_transition hground hline asks
    obtain ⟨kid, made, small, hd, hs, hdecision, hdepth, hmachine⟩ :=
      decide_eq hground.books hline address instruction
    cases ok.symm.trans hd
    exact hground.successor hs
      ((hground.explored hline).decided instruction needs hdecision hdepth hmachine)
  | @retained tree tree' held id mem ok =>
    have hl := hground.books.live_of_mem mem
    cases ok
    exact ⟨(books_addHolder hl).mpr hground.books,
      fun hfound => hground.explored ((line_addHolder hl).mp hfound)⟩
  | released ok =>
    obtain ⟨small, hr, hg, -⟩ := hground.release
    cases ok.symm.trans hr
    exact hg

/-- So do any number of them. -/
theorem works_ground {before after : StateTree × Multiset NodeId} (h : Works lenient before after)
    (hground : Ground lenient before.1 before.2) : Ground lenient after.1 after.2 := by
  induction h with
  | refl => exact hground
  | tail _ hwork ih => exact hwork.ground ih

/-- Every tree that a search works on is in hand. -/
theorem Worked.ground (h : Worked lenient tree held) : Ground lenient tree held := by
  obtain ⟨top, first, made, hworks⟩ := h
  obtain ⟨_, _, hr, hg, -⟩ := root_ground lenient
  cases made.symm.trans hr
  exact works_ground hworks hg

/-- What a search works on goes on to be so. -/
theorem Worked.trans (h : Worked lenient tree held)
    (hworks : Works lenient (tree, held) (tree', held')) : Worked lenient tree' held' := by
  obtain ⟨top, first, made, hbefore⟩ := h
  exact ⟨top, first, made, Relation.ReflTransGen.trans hbefore hworks⟩

end Operations

section Expansions

/-- Dropping a node on the way is no operation at all, or gives back its handle. -/
theorem works_dropBetween (h : Ground lenient tree (more + inHand origin current held)) :
    ∃ tree', Target.dropBetween origin current tree = .ok () tree' ∧
      Works lenient (tree, more + inHand origin current held) (tree', more + held) := by
  obtain ⟨tree', hd, -⟩ := h.dropBetween
  refine ⟨tree', hd, ?_⟩
  unfold inHand
  unfold Target.dropBetween at hd
  by_cases hc : current = origin
  · rw [if_pos hc] at hd ⊢
    cases hd
    exact .refl
  · rw [if_neg hc] at hd ⊢
    rw [Multiset.add_cons]
    exact .single (.released hd)

/-- So it is where nothing else is new. -/
theorem works_drop (h : Ground lenient tree (inHand origin current held)) :
    ∃ tree', Target.dropBetween origin current tree = .ok () tree' ∧
      Works lenient (tree, inHand origin current held) (tree', held) := by
  rw [← zero_add (inHand origin current held)] at h
  obtain ⟨tree', hd, hw⟩ := works_dropBetween h
  rw [zero_add, zero_add] at hw
  exact ⟨tree', hd, hw⟩

/-- Deciding a cell in several ways is one operation for each of them. -/
theorem works_decideAll (h : Ground lenient tree held) (hm : current ∈ held)
    (hline : Line tree current ((current, node) :: line)) {address : Word}
    (needs : (step lenient (machineOf (node :: nodesOf line))).1 = .needsDecision address)
    (instructions : List Instruction) :
    ∃ kids tree', (instructions.mapM fun instruction => decide current address instruction) tree =
        .ok kids tree' ∧ Works lenient (tree, held) (tree', kids + held) := by
  induction instructions generalizing tree held with
  | nil => exact ⟨[], tree, rfl, by rw [Multiset.coe_nil, zero_add]; exact .refl⟩
  | cons instruction instructions ih =>
    obtain ⟨kid, child, small, hd, hs, -, -, -⟩ := decide_eq h.books hline address instruction
    have ht : transition lenient current tree = .ok (.needsDecision address) tree :=
      transition_still hline (congrArg standing needs)
    have hwork : Work lenient (tree, held) (small, kid ::ₘ held) := .decided instruction hm ht hd
    obtain ⟨kids, tree', hk, hworks⟩ :=
      ih (hwork.ground h) (Multiset.mem_cons_of_mem hm) (hs.grown.keeps hline)
    refine ⟨kid :: kids, tree', ?_, .head hwork ?_⟩
    · simp only [List.mapM_cons, bind, EStateM.bind, hd, hk, pure, EStateM.pure]
    · rwa [← Multiset.cons_coe, Multiset.cons_add, ← Multiset.add_cons]

/-- An answer that operations have led to: it is in hand with what it has brought up.
Where there is no answer, the tree is still one that a search works on. -/
def Reaches (lenient : Bool) (before : StateTree × Multiset NodeId) (held : Multiset NodeId) :
    EStateM.Result Breakdown StateTree (Expansion NodeId) → Prop
  | .ok expansion tree' =>
    Works lenient before (tree', kidsOf expansion + goalsOf expansion + held)
  | .error _ tree' => ∃ held', Works lenient before (tree', held')

/-- Operations before others lead as far. -/
theorem Reaches.head {before middle : StateTree × Multiset NodeId}
    {answer : EStateM.Result Breakdown StateTree (Expansion NodeId)}
    (hworks : Works lenient before middle) (h : Reaches lenient middle held answer) :
    Reaches lenient before held answer := by
  cases answer with
  | ok expansion tree' => exact Relation.ReflTransGen.trans hworks h
  | error reason tree' =>
    obtain ⟨held', h⟩ := h
    exact ⟨held', Relation.ReflTransGen.trans hworks h⟩

/-- The children of an answer are the new handles. -/
theorem reaches_children {before : StateTree × Multiset NodeId} {kids : List NodeId}
    (h : Works lenient before (tree', kids + held)) :
    Reaches lenient before held (.ok (.children kids) tree') := by
  change Works lenient before (tree', kids + ([] : List NodeId) + held)
  rwa [Multiset.coe_nil, add_zero]

/-- The goal of an answer is the one new handle. -/
theorem reaches_goal {before : StateTree × Multiset NodeId} {goal : NodeId}
    (h : Works lenient before (tree', goal ::ₘ held)) :
    Reaches lenient before held (.ok (.goal goal) tree') := by
  change Works lenient before (tree', ([] : List NodeId) + ([goal] : List NodeId) + held)
  rwa [Multiset.coe_nil, zero_add, Multiset.coe_singleton, Multiset.singleton_add]

/-- Giving back the node on the way leaves no new handle. -/
theorem reaches_nothing (h : Works lenient (tree, held') (tree', held)) :
    Reaches lenient (tree, held') held (.ok (.children []) tree') := by
  refine reaches_children ?_
  rwa [Multiset.coe_nil, zero_add]

/-- Expanding a node is a sequence of operations, whether it comes to an end or not.
The induction is on the number of phases, as the expansion goes. -/
theorem reaches_expandFrom (target : Target) (horigin : origin ∈ held) (phases : Nat)
    (h : Ground target.lenient tree (inHand origin current held))
    (hline : Line tree current ((current, node) :: line)) :
    Reaches target.lenient (tree, inHand origin current held) held
      (target.expandFrom origin phases current tree) := by
  induction phases generalizing tree current node line with
  | zero => exact ⟨_, .refl⟩
  | succ phases ih =>
    have hm : current ∈ inHand origin current held := mem_inHand horigin
    have hn : tree.node? current = .ok node := hline.node?_of_mem List.mem_cons_self
    cases hout : (step target.lenient (machineOf (node :: nodesOf line))).1 with
    | completed status =>
      cases status with
      | running =>
        obtain ⟨child, made, small, after, ht, hd, hne, hg, -, hline', -⟩ :=
          h.goesOn horigin hline hout
        have hran : Work target.lenient (tree, inHand origin current held)
            (small, child ::ₘ inHand origin current held) := .ran hm ht
        have hsmall := hran.ground h
        dsimp only at hsmall
        rw [← Multiset.singleton_add] at hsmall
        obtain ⟨_, hd', hdrop⟩ := works_dropBetween hsmall
        cases hd.symm.trans hd'
        have hway : Works target.lenient (tree, inHand origin current held)
            (after, inHand origin child held) := by
          have hchild : inHand origin child held = {child} + held := by
            rw [inHand, if_neg hne, Multiset.singleton_add]
          rw [hchild]
          rw [← Multiset.singleton_add] at hran
          exact .head hran hdrop
        have hn' : after.node? child = .ok made := hline'.node?_of_mem List.mem_cons_self
        refine Reaches.head hway ?_
        simp only [Target.expandFrom, bind, EStateM.bind, ht, hd, StateTree.get, observe, hn']
        by_cases htrack : target.onTrack made.output = true
        · rw [if_pos htrack]
          exact ih hg hline'
        · rw [if_neg htrack]
          obtain ⟨last, hd', hdrop'⟩ := works_drop hg
          simp only [EStateM.bind, hd', pure, EStateM.pure]
          exact reaches_nothing hdrop'
      | exited =>
        have ht : transition target.lenient current tree = .ok .exited tree :=
          transition_still hline (congrArg standing hout)
        simp only [Target.expandFrom, bind, EStateM.bind, ht, StateTree.get, observe, hn]
        by_cases hmet : target.isMet node.output = true
        · rw [if_pos hmet]
          by_cases hc : current = origin
          · have hr : retain current tree = .ok () (tree.addHolder current) := rfl
            rw [if_pos hc]
            simp only [EStateM.bind, hr, pure, EStateM.pure]
            have hheld : inHand origin current held = held := by rw [inHand, if_pos hc]
            rw [hheld] at hm ⊢
            exact reaches_goal (.single (.retained hm hr))
          · have hheld : inHand origin current held = current ::ₘ held := by rw [inHand, if_neg hc]
            rw [if_neg hc, hheld]
            exact reaches_goal .refl
        · rw [if_neg hmet]
          obtain ⟨after, hd, hdrop⟩ := works_drop h
          simp only [EStateM.bind, hd, pure, EStateM.pure]
          exact reaches_nothing hdrop
    | needsDecision address =>
      have ht : transition target.lenient current tree = .ok (.needsDecision address) tree :=
        transition_still hline (congrArg standing hout)
      obtain ⟨kids, small, hb, hdecide⟩ := works_decideAll h hm hline hout Instruction.all
      obtain ⟨after, hd, hdrop⟩ := works_dropBetween (works_ground hdecide h)
      simp only [Target.expandFrom, bind, EStateM.bind, ht, Target.branch, hb, hd, pure,
        EStateM.pure]
      exact reaches_children (.trans hdecide hdrop)
    | failed fault =>
      have ht : transition target.lenient current tree = .ok (.failed fault) tree :=
        transition_still hline (congrArg standing hout)
      obtain ⟨after, hd, hdrop⟩ := works_drop h
      simp only [Target.expandFrom, bind, EStateM.bind, ht, hd, pure, EStateM.pure]
      exact reaches_nothing hdrop
    | overflowed => exact absurd hout ((h.explored hline).searching.step target.lenient).2.1

end Expansions

section Searches

/-- An operation of a policy that has an answer. -/
theorem ok_of_outcome {α : Type} {answer : EStateM.Result Breakdown StateTree α} {value : α}
    (h : outcome answer = .ok (value, tree)) : answer = .ok value tree := by
  cases answer with
  | ok value tree =>
    cases h
    rfl
  | error reason tree => cases h

/-- Expanding a node that a search has in hand is work on its tree. -/
theorem Worked.reaches (h : Worked target.lenient tree held) (hm : id ∈ held) (phases : Nat) :
    Reaches target.lenient (tree, held) held (target.expandFrom id phases id tree) := by
  obtain ⟨node, line, hline⟩ := h.ground.books.line_of_mem hm
  have hheld : inHand id id held = held := by rw [inHand, if_pos rfl]
  have hreach := reaches_expandFrom target hm phases (hheld.symm ▸ h.ground) hline
  rwa [hheld] at hreach

/-- A search for a target only does such work, whatever it keeps. -/
theorem worked_kept (target : Target) :
    Kept target.policy fun tree candidates goals =>
      Worked target.lenient tree (candidates + goals) := by
  have hexpand : ∀ {tree tree' : StateTree} {held : Multiset NodeId} {id : NodeId}
      {expansion : Expansion NodeId}, Worked target.lenient tree held → id ∈ held →
      target.policy.expand tree id = .ok (expansion, tree') →
      Worked target.lenient tree' (kidsOf expansion + goalsOf expansion + held) := by
    intro tree tree' held id expansion h hm ok
    have hreach := h.reaches hm target.phaseLimit
    have hanswer : target.expandFrom id target.phaseLimit id tree = .ok expansion tree' :=
      ok_of_outcome ok
    rw [hanswer] at hreach
    exact h.trans hreach
  have hrelease : ∀ {tree tree' : StateTree} {held : Multiset NodeId} {id : NodeId},
      Worked target.lenient tree (id ::ₘ held) → target.policy.release tree id = .ok tree' →
      Worked target.lenient tree' held := by
    intro tree tree' held id h ok
    obtain ⟨after, hr, -⟩ := h.ground.release
    simp only [Target.policy, hr, outcome, Except.map, Except.ok.injEq] at ok
    subst ok
    exact h.trans (.single (.released hr))
  refine ⟨fun {_ _ candidates goals _ nodes} h hm ok => ?_,
    fun {_ _ candidates goals _ goal} h hm ok => ?_, fun h ok => ?_, fun h ok => ?_⟩
  · have hafter := hexpand h (Multiset.mem_add.mpr (.inl hm)) ok
    rwa [kidsOf, goalsOf, Multiset.coe_nil, add_zero, ← add_assoc] at hafter
  · have hafter := hexpand h (Multiset.mem_add.mpr (.inl hm)) ok
    rwa [kidsOf, goalsOf, Multiset.coe_nil, zero_add, Multiset.coe_singleton,
      Multiset.singleton_add, ← Multiset.add_cons] at hafter
  · rw [Multiset.cons_add] at h
    exact hrelease h ok
  · rw [Multiset.add_cons] at h
    exact hrelease h ok

variable {G : Type} [RandomSource G] {searcher : Searcher StateTree NodeId G}

/-- Whatever rounds and runs a search makes, its tree is one that it has worked on. -/
theorem worked_of_course (h : Course target searcher goals) :
    Worked target.lenient searcher.state (searcher.frontier + goals) := by
  induction h with
  | start made begins =>
    unfold Searcher.ofRoot at begins
    split at begins
    · cases begins
    · cases begins
      exact ⟨_, _, made, .refl⟩
  | @round searcher searcher' goals found before phases ran ih =>
    rw [← add_zero (searcher.frontier : Multiset NodeId)] at ih
    have hafter := (worked_kept (within target phases)).searchRound ih ran
    rwa [add_zero] at hafter
  | @run searcher searcher' goals ω notes notes' ending before phases limit observer ran ih =>
    rw [← add_zero (searcher.frontier : Multiset NodeId)] at ih
    have hafter := (worked_kept (within target phases)).run ih ran
    rwa [add_zero] at hafter
  | release before released ih =>
    rw [Multiset.add_cons] at ih
    exact ih.trans (.single (.released released))

end Searches

section Bounds

/-- A node whose registers, write and depth are in bounds. -/
structure InBounds (node : Node) : Prop where
  /-- Its registers hold words. -/
  registers : Registers.InRange node.registers
  /-- It writes a word to a cell of the memory, if it writes at all. -/
  write : ∀ write, node.write = some write → write.address < wordSize ∧ write.value < wordSize
  /-- It has not more decisions above it than there are cells. -/
  depth_le : node.depth ≤ wordSize

/-- Addresses that are words and of which no two are equal are not more than there are
words. -/
theorem length_le_of_nodup {addresses : List Word} (hnodup : addresses.Nodup)
    (hlt : ∀ a ∈ addresses, a < wordSize) : addresses.length ≤ wordSize := by
  have hsub : addresses ⊆ List.range wordSize := fun a ha => List.mem_range.mpr (hlt a ha)
  have hle := (hnodup.subperm hsub).length_le
  rwa [List.length_range] at hle

/-- A line of a search decides not more cells than there are. -/
theorem decided_length_le {nodes : List Node} (h : Explored lenient nodes) :
    (decidedOn nodes).length ≤ wordSize := by
  have hle := length_le_of_nodup h.nodup fun a ha => by
    obtain ⟨⟨a, v⟩, hm, rfl⟩ := List.mem_map.mp ha
    exact (h.encoded hm).1
  rwa [List.length_map] at hle

/-- The nodes that a search makes are in bounds. What a node has written is a decided
cell of its machine. -/
theorem inBounds_of_explored {nodes : List Node} (h : Explored lenient (node :: nodes)) :
    InBounds node := by
  refine ⟨h.searching.inRange.registers, fun write hw => ?_, ?_⟩
  · have hread : Memory.read (machineOf (node :: nodes)).memory write.address =
        some write.value := by
      change (memoryOf (node :: nodes)).read write.address = _
      rw [read_memoryOf_cons, Node.valueAt, hw]
      dsimp only
      rw [if_pos rfl]
    obtain ⟨v, hv⟩ := (h.decided_iff write.address).mp (by rw [hread]; rfl)
    exact ⟨(h.encoded hv).1, h.searching.inRange.memory _ _ hread⟩
  · rw [h.depth_eq]
    exact decided_length_le h

/-- So is every live node of a tree in hand. -/
theorem inBounds_of_ground (h : Ground lenient tree held) (hn : tree.node? id = .ok node) :
    InBounds node := by
  obtain ⟨line, hline⟩ := h.books.rooted id (live_iff.mpr ⟨node, hn⟩)
  obtain ⟨found, rest, rfl, hfound⟩ := hline.eq_cons
  cases hn.symm.trans hfound
  exact inBounds_of_explored (h.explored hline)

/-- A phase of a node in hand asks for cells of the memory only, and no pointer leaves
its range. -/
theorem transition_inBounds (h : Ground lenient tree held) (hm : id ∈ held) :
    (∃ answer tree', transition lenient id tree = .ok answer tree') ∧
      ∀ address tree', transition lenient id tree = .ok (.needsDecision address) tree' →
        address < wordSize := by
  obtain ⟨node, line, hline⟩ := h.books.line_of_mem hm
  have hsearching := (h.explored hline).searching.step lenient
  constructor
  · cases hout : (step lenient (machineOf (node :: nodesOf line))).1 with
    | completed status =>
      cases status with
      | running =>
        obtain ⟨child, _, small, ht, -⟩ := transition_running h.books hline hout
        exact ⟨_, _, ht⟩
      | exited => exact ⟨_, _, transition_still hline (congrArg standing hout)⟩
    | needsDecision address => exact ⟨_, _, transition_still hline (congrArg standing hout)⟩
    | failed fault => exact ⟨_, _, transition_still hline (congrArg standing hout)⟩
    | overflowed => exact absurd hout hsearching.2.1
  · intro address tree' asks
    exact hsearching.2.2 address (needs_of_transition h hline asks)

end Bounds

end TernarySynth.Proofs.SearchWork
