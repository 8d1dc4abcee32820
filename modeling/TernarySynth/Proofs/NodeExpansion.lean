import TernarySynth.Proofs.Lookahead

/-!
# Expanding a node

An expansion works on a tree that a search has in hand. It walks along the run
of the node, creating a node for each phase and giving back the one before, and
leaves one of three things behind: nothing, a goal, or a child for every
instruction. Which of them it is, and which machines the new nodes stand for, is
the fate of the machine of the node. Handles that are in use mean the same
afterwards as before.
-/

namespace TernarySynth.Proofs.NodeExpansion

open TritWord CellCode MemoryImage TernarySynth.Cycle StateTree Speculation BeamSearch TargetSearch
open LateDecision TreeLine HolderBooks LineMachine WordRange ExploredLine Lookahead

/-- A tree that a search has in hand: the handles in use are `held`, and every
line was made by a search. -/
structure Ground (lenient : Bool) (tree : StateTree) (held : Multiset NodeId) : Prop where
  /-- The tree counts the handles in use. -/
  books : Books tree held
  /-- Its lines are those of a search. -/
  explored : ∀ {id line}, Line tree id line → Explored lenient (nodesOf line)

/-- Handles that mean the same in one tree as in another. -/
def Keeps (held : Multiset NodeId) (tree tree' : StateTree) : Prop :=
  ∀ id ∈ held, ∀ line, Line tree id line → Line tree' id line

variable {lenient : Bool} {tree tree' : StateTree} {held more : Multiset NodeId}
variable {id origin current : NodeId} {node : Node} {line : List (NodeId × Node)}

/-- What is kept in two trees after each other is kept. -/
theorem Keeps.trans {tree'' : StateTree} (h : Keeps held tree tree')
    (h' : Keeps held tree' tree'') : Keeps held tree tree'' :=
  fun other hm line hline => h' other hm line (h other hm line hline)

/-- What is kept for more handles is kept for fewer. -/
theorem Keeps.of_le (hle : more ≤ held) (h : Keeps held tree tree') : Keeps more tree tree' :=
  fun other hm => h other (Multiset.mem_of_le hle hm)

/-- A new node on top of a line leaves the tree in hand. -/
theorem Ground.successor (h : Ground lenient tree held) {child : NodeId} {made : Node}
    (hs : Successor tree tree' held line child made)
    (he : Explored lenient (made :: nodesOf line)) : Ground lenient tree' (child ::ₘ held) := by
  refine ⟨hs.books, fun {other found} hfound => ?_⟩
  rcases hs.grown.old hfound with rfl | hold
  · rw [hfound.unique hs.line]
    exact he
  · exact h.explored hold

/-- Giving back a handle leaves the tree in hand. -/
theorem Ground.release (h : Ground lenient tree (id ::ₘ held)) :
    ∃ tree', release id tree = .ok () tree' ∧ Ground lenient tree' held ∧ Keeps held tree tree' := by
  obtain ⟨tree', hr, hb, hold⟩ := h.books.releaseFrom
  refine ⟨tree', hr, ⟨hb, fun hline => h.explored (hold hline)⟩, fun other hm line hline => ?_⟩
  exact hb.keeps_of_old hold hm hline

/-- The handles in use on the way from `origin` to `current`. -/
def inHand (origin current : NodeId) (held : Multiset NodeId) : Multiset NodeId :=
  if current = origin then held else current ::ₘ held

/-- The present node is in hand. -/
theorem mem_inHand (horigin : origin ∈ held) : current ∈ inHand origin current held := by
  unfold inHand
  split
  next hc => rwa [hc]
  next => exact Multiset.mem_cons_self current held

/-- Dropping a node on the way gives back its handle, if it has one of its own. -/
theorem Ground.dropBetween (h : Ground lenient tree (more + inHand origin current held)) :
    ∃ tree', Target.dropBetween origin current tree = .ok () tree' ∧
      Ground lenient tree' (more + held) ∧ Keeps (more + held) tree tree' := by
  unfold inHand at h
  unfold Target.dropBetween
  by_cases hc : current = origin
  · rw [if_pos hc] at h ⊢
    exact ⟨tree, rfl, h, fun _ _ _ hline => hline⟩
  · rw [if_neg hc, Multiset.add_cons] at h
    rw [if_neg hc]
    exact h.release

/-- The child of a node that decides a cell with an instruction: on top of the
line of the node, with the value stored in the machine. -/
def Decides (tree : StateTree) (line : List (NodeId × Node)) (address : Word)
    (instruction : Instruction) (kid : NodeId) : Prop :=
  ∃ child, Line tree kid ((kid, child) :: line) ∧ machineOf (child :: nodesOf line) =
    (machineOf (nodesOf line)).store address (encode address instruction)

/-- Children whose handles mean the same still decide the cell. -/
theorem decides_keeps {address : Word} {instructions : List Instruction} {kids : List NodeId}
    (hk : Keeps kids tree tree')
    (h : List.Forall₂ (Decides tree line address) instructions kids) :
    List.Forall₂ (Decides tree' line address) instructions kids := by
  induction h with
  | nil => exact .nil
  | @cons instruction kid instructions kids hd _ ih =>
    obtain ⟨child, hline, hmachine⟩ := hd
    refine .cons ⟨child, hk kid (Multiset.mem_coe.mpr List.mem_cons_self) _ hline, hmachine⟩ ?_
    exact ih fun other hm =>
      hk other (Multiset.mem_coe.mpr (List.mem_cons_of_mem _ (Multiset.mem_coe.mp hm)))

/-- Deciding a cell in several ways creates as many children. -/
theorem Ground.decideAll (h : Ground lenient tree held)
    (hline : Line tree current ((current, node) :: line)) {address : Word}
    (needs : (step lenient (machineOf (node :: nodesOf line))).1 = .needsDecision address)
    (instructions : List Instruction) :
    ∃ kids tree', (instructions.mapM fun instruction => decide current address instruction) tree =
        .ok kids tree' ∧
      Ground lenient tree' (kids + held) ∧
      (∀ {other found}, Line tree other found → Line tree' other found) ∧
      List.Forall₂ (Decides tree' ((current, node) :: line) address) instructions kids := by
  induction instructions generalizing tree held with
  | nil => exact ⟨[], tree, rfl, by rwa [Multiset.coe_nil, Multiset.zero_add], id, .nil⟩
  | cons instruction instructions ih =>
    obtain ⟨kid, child, small, hd, hs, hdecision, hdepth, hmachine⟩ :=
      decide_eq h.books hline address instruction
    have he : Explored lenient (child :: node :: nodesOf line) :=
      (h.explored hline).decided instruction needs hdecision hdepth hmachine
    have hg := h.successor hs he
    obtain ⟨kids, tree', hk, hg', hkeeps, hall⟩ := ih hg (hs.grown.keeps hline)
    refine ⟨kid :: kids, tree', ?_, ?_, fun hfound => hkeeps (hs.grown.keeps hfound), ?_⟩
    · simp only [List.mapM_cons, bind, EStateM.bind, hd, hk, pure, EStateM.pure]
    · rw [← Multiset.cons_coe, Multiset.cons_add]
      rwa [Multiset.add_cons] at hg'
    · exact .cons ⟨child, hkeeps hs.line, hmachine⟩ hall

/-- What an expansion leaves behind: the tree is in hand again, with new handles
besides the old ones, and the old ones mean the same. -/
structure Leaves (lenient : Bool) (tree tree' : StateTree) (new held : Multiset NodeId) :
    Prop where
  /-- The tree is in hand. -/
  ground : Ground lenient tree' (new + held)
  /-- Old handles mean the same. -/
  keeps : Keeps held tree tree'

/-- What an expansion answers, given the fate of its machine. -/
def Expanded (lenient : Bool) (tree : StateTree) (held : Multiset NodeId)
    (answer : EStateM.Result Breakdown StateTree (Expansion NodeId)) : Option Fate → Prop
  | none => ∃ tree', answer = .error .unfinished tree'
  | some .dies => ∃ tree', answer = .ok (.children []) tree' ∧ Leaves lenient tree tree' 0 held
  | some (.succeeds machine) => ∃ goal found tree', answer = .ok (.goal goal) tree' ∧
    Leaves lenient tree tree' {goal} held ∧ Line tree' goal found ∧
      machineOf (nodesOf found) = machine
  | some (.asks address machine) => ∃ kids found tree', answer = .ok (.children kids) tree' ∧
    Leaves lenient tree tree' kids held ∧ machineOf (nodesOf found) = machine ∧
      List.Forall₂ (Decides tree' found address) Instruction.all kids

/-- An expansion answers if and only if the fate of its machine is settled, and
then it leaves some new handles behind. -/
theorem Expanded.answers {answer : EStateM.Result Breakdown StateTree (Expansion NodeId)}
    {found : Option Fate} (h : Expanded lenient tree held answer found) :
    (found = none ∧ ∃ tree', answer = .error .unfinished tree') ∨
      (found ≠ none ∧ ∃ expansion tree' new, answer = .ok expansion tree' ∧
        Leaves lenient tree tree' new held) := by
  cases found with
  | none => exact .inl ⟨rfl, h⟩
  | some found =>
    refine .inr ⟨nofun, ?_⟩
    cases found with
    | dies =>
      obtain ⟨tree', ha, hl⟩ := h
      exact ⟨_, tree', 0, ha, hl⟩
    | succeeds machine =>
      obtain ⟨goal, _, tree', ha, hl, -⟩ := h
      exact ⟨_, tree', _, ha, hl⟩
    | asks address machine =>
      obtain ⟨kids, _, tree', ha, hl, -⟩ := h
      exact ⟨_, tree', _, ha, hl⟩

/-- Handles that mean the same have the same lines. -/
theorem Keeps.line_iff (hk : Keeps more tree tree') (h : Ground lenient tree held)
    (hle : more ≤ held) (hm : id ∈ more) : Line tree' id line ↔ Line tree id line := by
  refine ⟨fun hline => ?_, hk id hm line⟩
  obtain ⟨node, rest, hold⟩ := h.books.line_of_mem (Multiset.mem_of_le hle hm)
  rwa [hline.unique (hk id hm _ hold)]

/-- What an expansion answers depends on the tree it starts from only through
the handles in use. -/
theorem Expanded.of_keeps {small : StateTree} (hk : Keeps held tree small)
    {answer : EStateM.Result Breakdown StateTree (Expansion NodeId)} {found : Option Fate}
    (h : Expanded lenient small held answer found) : Expanded lenient tree held answer found := by
  cases found with
  | none => exact h
  | some found =>
    cases found with
    | dies =>
      obtain ⟨tree', ha, hl⟩ := h
      exact ⟨tree', ha, hl.ground, hk.trans hl.keeps⟩
    | succeeds machine =>
      obtain ⟨goal, line, tree', ha, hl, hrest⟩ := h
      exact ⟨goal, line, tree', ha, ⟨hl.ground, hk.trans hl.keeps⟩, hrest⟩
    | asks address machine =>
      obtain ⟨kids, line, tree', ha, hl, hrest⟩ := h
      exact ⟨kids, line, tree', ha, ⟨hl.ground, hk.trans hl.keeps⟩, hrest⟩

section Expanding

variable {target : Target} {phases : Nat}

/-- The handle on the way may be given back, and nothing is left behind. -/
theorem Ground.dies (h : Ground lenient tree (inHand origin current held)) :
    ∃ tree', Target.dropBetween origin current tree = .ok () tree' ∧
      Leaves lenient tree tree' 0 held := by
  rw [← Multiset.zero_add (inHand origin current held)] at h
  obtain ⟨tree', hd, hg, hk⟩ := h.dropBetween
  rw [Multiset.zero_add] at hk
  exact ⟨tree', hd, hg, hk⟩

/-- A node on the way that is a goal has a handle of its own, or it gets one. -/
theorem Ground.succeeds (h : Ground lenient tree (inHand origin current held))
    (hline : Line tree current line) :
    ∃ tree', (current = origin → retain current tree = .ok () tree') ∧
      (current ≠ origin → tree' = tree) ∧ Leaves lenient tree tree' {current} held ∧
      Line tree' current line := by
  unfold inHand at h
  by_cases hc : current = origin
  · rw [if_pos hc] at h
    have hl := hline.live
    refine ⟨tree.addHolder current, fun _ => rfl, fun hne => absurd hc hne,
      ⟨⟨?_, fun hfound => ?_⟩, fun _ _ _ hfound => ?_⟩, ?_⟩
    · exact (books_addHolder hl).mpr h.books
    · exact h.explored ((line_addHolder hl).mp hfound)
    · exact (line_addHolder hl).mpr hfound
    · exact (line_addHolder hl).mpr hline
  · rw [if_neg hc] at h
    exact ⟨tree, fun heq => absurd heq hc, fun _ => rfl,
      ⟨h, fun _ _ _ hfound => hfound⟩, hline⟩

/-- A phase that completes leads to a new node on the way, and the one before is
given back. -/
theorem Ground.goesOn (h : Ground lenient tree (inHand origin current held))
    (horigin : origin ∈ held) (hline : Line tree current ((current, node) :: line))
    (hrun : (step lenient (machineOf (node :: nodesOf line))).1 = .completed .running) :
    ∃ child made small tree', transition lenient current tree = .ok (.stepped child) small ∧
      Target.dropBetween origin current small = .ok () tree' ∧ child ≠ origin ∧
      Ground lenient tree' (inHand origin child held) ∧ Keeps held tree tree' ∧
      Line tree' child ((child, made) :: (current, node) :: line) ∧
      machineOf (made :: node :: nodesOf line) =
        (step lenient (machineOf (node :: nodesOf line))).2 := by
  obtain ⟨child, made, small, ht, hs, hdecision, hdepth, hmachine⟩ :=
    transition_running h.books hline hrun
  have he : Explored lenient (made :: node :: nodesOf line) :=
    (h.explored hline).ran hrun hdecision hdepth hmachine
  have hg := h.successor hs he
  rw [← Multiset.singleton_add] at hg
  obtain ⟨tree', hd, hg', hk⟩ := hg.dropBetween
  have hlive : Live tree origin := by
    refine h.books.live_of_mem ?_
    unfold inHand
    split
    · exact horigin
    · exact Multiset.mem_cons_of_mem horigin
  have hne : child ≠ origin := by
    rintro rfl
    exact hs.grown.fresh hlive
  refine ⟨child, made, small, tree', ht, hd, hne, ?_, ?_, ?_, hmachine⟩
  · rwa [inHand, if_neg hne, ← Multiset.singleton_add]
  · intro other hm found hfound
    exact hk other (Multiset.mem_add.mpr (.inr hm)) found (hs.grown.keeps hfound)
  · exact hk child (Multiset.mem_add.mpr (.inl (Multiset.mem_singleton_self child))) _ hs.line

/-- A node on the way that fails leaves nothing behind. -/
theorem Ground.expandFrom_failed (h : Ground target.lenient tree (inHand origin current held))
    (hline : Line tree current ((current, node) :: line)) {fault : Fault}
    (hout : (step target.lenient (machineOf (node :: nodesOf line))).1 = .failed fault) :
    Expanded target.lenient tree held (target.expandFrom origin (phases + 1) current tree)
      (some (settle target (machineOf (node :: nodesOf line)))) := by
  have ht : transition target.lenient current tree = .ok (.failed fault) tree :=
    transition_still hline (by rw [hout]; rfl)
  obtain ⟨tree', hd, hl⟩ := h.dies
  simp only [settle, hout]
  refine ⟨tree', ?_, hl⟩
  simp only [Target.expandFrom, bind, EStateM.bind, ht, hd, pure, EStateM.pure]

/-- A node on the way that exits is a goal if it has printed the target, and
leaves nothing behind otherwise. -/
theorem Ground.expandFrom_exited (h : Ground target.lenient tree (inHand origin current held))
    (hline : Line tree current ((current, node) :: line))
    (hout : (step target.lenient (machineOf (node :: nodesOf line))).1 = .completed .exited) :
    Expanded target.lenient tree held (target.expandFrom origin (phases + 1) current tree)
      (some (settle target (machineOf (node :: nodesOf line)))) := by
  have hn : tree.node? current = .ok node := hline.node?_of_mem List.mem_cons_self
  have ht : transition target.lenient current tree = .ok .exited tree :=
    transition_still hline (by rw [hout]; rfl)
  have hout' : (machineOf (node :: nodesOf line)).channel.output = node.output := rfl
  simp only [settle, hout]
  rw [hout']
  by_cases hmet : target.isMet node.output = true
  · rw [if_pos hmet]
    obtain ⟨tree', hretain, hsame, hl, hline'⟩ := h.succeeds hline
    refine ⟨current, _, tree', ?_, hl, hline', rfl⟩
    simp only [Target.expandFrom, bind, EStateM.bind, ht, StateTree.get, observe, hn,
      if_pos hmet, pure]
    by_cases hc : current = origin
    · rw [if_pos hc]
      simp only [EStateM.bind, hretain hc, EStateM.pure]
    · rw [if_neg hc, hsame hc, EStateM.pure]
  · rw [if_neg hmet]
    obtain ⟨tree', hd, hl⟩ := h.dies
    refine ⟨tree', ?_, hl⟩
    simp only [Target.expandFrom, bind, EStateM.bind, ht, StateTree.get, observe, hn,
      if_neg hmet, hd, pure, EStateM.pure]

/-- A node on the way that asks for a cell leaves a child for every instruction
behind. -/
theorem Ground.expandFrom_needs (h : Ground target.lenient tree (inHand origin current held))
    (hline : Line tree current ((current, node) :: line)) {address : Word}
    (hout : (step target.lenient (machineOf (node :: nodesOf line))).1 =
      .needsDecision address) :
    Expanded target.lenient tree held (target.expandFrom origin (phases + 1) current tree)
      (some (settle target (machineOf (node :: nodesOf line)))) := by
  have ht : transition target.lenient current tree = .ok (.needsDecision address) tree :=
    transition_still hline (by rw [hout]; rfl)
  obtain ⟨kids, small, hb, hg, hlines, hall⟩ := h.decideAll hline hout Instruction.all
  obtain ⟨tree', hd, hg', hk⟩ := hg.dropBetween
  simp only [settle, hout]
  refine ⟨kids, (current, node) :: line, tree', ?_, ⟨hg', ?_⟩, rfl, ?_⟩
  · simp only [Target.expandFrom, bind, EStateM.bind, ht, Target.branch, hb, hd, pure,
      EStateM.pure]
  · intro other hm found hfound
    exact hk other (Multiset.mem_add.mpr (.inr hm)) found (hlines hfound)
  · exact decides_keeps (fun kid hm => hk kid (Multiset.mem_add.mpr (.inl hm))) hall

/-- The expansion of a node answers what the fate of its machine says. The
induction is on the number of phases; on the way, besides the handles that were
in use before, there is one on the present node, unless that is the node that
is expanded. -/
theorem expandFrom_expanded (target : Target) (horigin : origin ∈ held) (phases : Nat)
    (h : Ground target.lenient tree (inHand origin current held))
    (hline : Line tree current ((current, node) :: line)) :
    Expanded target.lenient tree held (target.expandFrom origin phases current tree)
      (fate target phases (machineOf (node :: nodesOf line))) := by
  induction phases generalizing tree current node line with
  | zero => exact ⟨tree, rfl⟩
  | succ phases ih =>
    have hsettled : (step target.lenient (machineOf (node :: nodesOf line))).1 ≠
        .completed .running → fate target (phases + 1) (machineOf (node :: nodesOf line)) =
          some (settle target (machineOf (node :: nodesOf line))) :=
      fun hne => fate_of_stops hne phases
    cases hout : (step target.lenient (machineOf (node :: nodesOf line))).1 with
    | completed status =>
      rw [hout] at hsettled
      cases status with
      | running =>
        obtain ⟨child, made, small, tree', ht, hd, hne, hg, hk, hline', hmachine⟩ :=
          h.goesOn horigin hline hout
        have hn' : tree'.node? child = .ok made := hline'.node?_of_mem List.mem_cons_self
        have hstep : step target.lenient (machineOf (node :: nodesOf line)) =
            (.completed .running, machineOf (made :: node :: nodesOf line)) :=
          Prod.ext hout hmachine.symm
        rw [fate_of_runs hstep]
        refine Expanded.of_keeps hk ?_
        simp only [Target.expandFrom, bind, EStateM.bind, ht, hd, StateTree.get, observe, hn']
        have hout' : (machineOf (made :: node :: nodesOf line)).channel.output = made.output := rfl
        rw [hout']
        by_cases htrack : target.onTrack made.output = true
        · rw [if_pos htrack, if_pos htrack]
          exact ih hg hline'
        · rw [if_neg htrack, if_neg htrack]
          obtain ⟨small, hd', hl⟩ := hg.dies
          refine ⟨small, ?_, hl⟩
          simp only [EStateM.bind, hd', pure, EStateM.pure]
      | exited =>
        rw [hsettled fun heq => by cases heq]
        exact h.expandFrom_exited hline hout
    | needsDecision address =>
      rw [hout] at hsettled
      rw [hsettled fun heq => by cases heq]
      exact h.expandFrom_needs hline hout
    | failed fault =>
      rw [hout] at hsettled
      rw [hsettled fun heq => by cases heq]
      exact h.expandFrom_failed hline hout
    | overflowed =>
      have hsearching := (h.explored hline).searching
      exact absurd hout (hsearching.step target.lenient).2.1

end Expanding

end TernarySynth.Proofs.NodeExpansion
