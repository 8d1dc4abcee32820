import TernarySynth.Proofs.NodeExpansion
import TernarySynth.Proofs.RoundLedger

/-!
# The ledger of a search for a target

The handles that a search for a target has in hand are exactly those that its
tree counts, whatever rounds it runs, and its goals are nodes that exit having
printed the target.
-/

namespace TernarySynth.Proofs.TargetLedger

open TritWord TernarySynth.Cycle StateTree BeamSearch TargetSearch
open TreeLine HolderBooks LineMachine ExploredLine Lookahead NodeExpansion RoundLedger

/-- A node that exits and has printed the target. -/
def IsGoal (target : Target) (tree : StateTree) (id : NodeId) : Prop :=
  ∃ line, Line tree id line ∧
    (step target.lenient (machineOf (nodesOf line))).1 = .completed .exited ∧
    target.isMet (machineOf (nodesOf line)).channel.output = true

/-- What a search for a target has in hand. -/
structure Holds (target : Target) (tree : StateTree) (candidates goals : Multiset NodeId) :
    Prop where
  /-- The tree counts the candidates and the goals. -/
  ground : Ground target.lenient tree (candidates + goals)
  /-- The goals are goals. -/
  isGoal : ∀ id ∈ goals, IsGoal target tree id

variable {target : Target} {tree tree' : StateTree} {held candidates goals : Multiset NodeId}
variable {id : NodeId}

/-- A goal whose handle means the same is still a goal. -/
theorem isGoal_of_keeps (hk : Keeps held tree tree') (hm : id ∈ held)
    (h : IsGoal target tree id) : IsGoal target tree' id := by
  obtain ⟨line, hline, hrest⟩ := h
  exact ⟨line, hk id hm line hline, hrest⟩

/-- The expansion of a node that is in hand answers what its fate says. -/
theorem expandFrom_of_mem (h : Ground target.lenient tree held) (hm : id ∈ held) (phases : Nat) :
    ∃ line, Line tree id line ∧
      Expanded target.lenient tree held (target.expandFrom id phases id tree)
        (fate target phases (machineOf (nodesOf line))) := by
  obtain ⟨node, line, hline⟩ := h.books.line_of_mem hm
  refine ⟨_, hline, expandFrom_expanded target hm phases ?_ hline⟩
  rwa [inHand, if_pos rfl]

/-- An expansion that answers children leaves their handles behind. -/
theorem leaves_children {phases : Nat} {kids : List NodeId}
    (h : Ground target.lenient tree held) (hm : id ∈ held)
    (ok : target.expandFrom id phases id tree = .ok (.children kids) tree') :
    Leaves target.lenient tree tree' kids held := by
  obtain ⟨line, hline, he⟩ := expandFrom_of_mem h hm phases
  rw [ok] at he
  unfold Expanded at he
  split at he
  next =>
    obtain ⟨_, ha⟩ := he
    cases ha
  next =>
    obtain ⟨_, ha, hl⟩ := he
    cases ha
    exact hl
  next =>
    obtain ⟨_, _, _, ha, -⟩ := he
    cases ha
  next =>
    obtain ⟨_, _, _, ha, hl, -⟩ := he
    cases ha
    exact hl

/-- An expansion that answers a goal leaves a handle on it behind. -/
theorem leaves_goal {phases : Nat} {goal : NodeId}
    (h : Ground target.lenient tree held) (hm : id ∈ held)
    (ok : target.expandFrom id phases id tree = .ok (.goal goal) tree') :
    Leaves target.lenient tree tree' {goal} held ∧ IsGoal target tree' goal := by
  obtain ⟨line, hline, he⟩ := expandFrom_of_mem h hm phases
  rw [ok] at he
  unfold Expanded at he
  split at he
  next =>
    obtain ⟨_, ha⟩ := he
    cases ha
  next =>
    obtain ⟨_, ha, -⟩ := he
    cases ha
  next last hf =>
    obtain ⟨_, found, _, ha, hl, hfound, hmachine⟩ := he
    cases ha
    refine ⟨hl, found, hfound, ?_⟩
    rw [hmachine]
    exact exits_of_succeeds hf
  next =>
    obtain ⟨_, _, _, ha, -⟩ := he
    cases ha

/-- A search for a target keeps its ledger. -/
theorem target_kept (target : Target) : Kept target.policy (Holds target) := by
  have hok : ∀ {α : Type} {answer : EStateM.Result Breakdown StateTree α} {value : α}
      {tree : StateTree}, outcome answer = .ok (value, tree) → answer = .ok value tree := by
    intro α answer value tree h
    cases answer with
    | ok value tree =>
      cases h
      rfl
    | error reason tree => cases h
  have hrelease : ∀ {tree tree' : StateTree} {id : NodeId} {held : Multiset NodeId},
      Ground target.lenient tree (id ::ₘ held) → target.policy.release tree id = .ok tree' →
      Ground target.lenient tree' held ∧ Keeps held tree tree' := by
    intro tree tree' id held h ok
    obtain ⟨after, hr, hg, hk⟩ := h.release
    simp only [Target.policy, hr, outcome, Except.map, Except.ok.injEq] at ok
    subst ok
    exact ⟨hg, hk⟩
  refine ⟨fun h hm ok => ?_, fun h hm ok => ?_, fun h ok => ?_, fun h ok => ?_⟩
  · have hl := leaves_children h.ground (Multiset.mem_add.mpr (.inl hm)) (hok ok)
    refine ⟨?_, fun goal hg => ?_⟩
    · rw [add_assoc]
      exact hl.ground
    · exact isGoal_of_keeps hl.keeps (Multiset.mem_add.mpr (.inr hg)) (h.isGoal goal hg)
  · obtain ⟨hl, hnew⟩ := leaves_goal h.ground (Multiset.mem_add.mpr (.inl hm)) (hok ok)
    refine ⟨?_, fun goal hg => ?_⟩
    · rw [Multiset.add_cons, ← Multiset.singleton_add]
      exact hl.ground
    · rcases Multiset.mem_cons.mp hg with rfl | hg
      · exact hnew
      · exact isGoal_of_keeps hl.keeps (Multiset.mem_add.mpr (.inr hg)) (h.isGoal goal hg)
  · have hground := h.ground
    rw [Multiset.cons_add] at hground
    obtain ⟨hg, hk⟩ := hrelease hground ok
    exact ⟨hg, fun goal hm =>
      isGoal_of_keeps hk (Multiset.mem_add.mpr (.inr hm)) (h.isGoal goal hm)⟩
  · have hground := h.ground
    rw [Multiset.add_cons] at hground
    obtain ⟨hg, hk⟩ := hrelease hground ok
    exact ⟨hg, fun goal hm => isGoal_of_keeps hk (Multiset.mem_add.mpr (.inr hm))
      (h.isGoal goal (Multiset.mem_cons_of_mem hm))⟩

/-- After a round the next frontier is in hand, and so are the goals that were found. -/
theorem Holds.searchRound {G : Type} [RandomSource.RandomSource G]
    {searcher searcher' : Searcher StateTree NodeId G} {found : List NodeId}
    (h : Holds target searcher.state searcher.frontier goals)
    (ok : searcher.searchRound target.policy = .ok (found, searcher')) :
    Holds target searcher'.state searcher'.frontier (found + goals) := by
  rw [← add_zero (searcher.frontier : Multiset NodeId)] at h
  have hafter := (target_kept target).searchRound h ok
  rwa [add_zero] at hafter

/-- A search begins with a root in hand. -/
theorem root_ground (lenient : Bool) :
    ∃ id tree, root StateTree.empty = .ok id tree ∧ Ground lenient tree {id} ∧
      Line tree id [(id, .root)] := by
  have htop : ∀ parent, Node.root.parent = some parent → Live StateTree.empty parent := nofun
  obtain ⟨id, tree, hl, hb, hg⟩ := books_empty.link htop
  have hline : Line tree id [(id, .root)] := .root hg.here rfl
  refine ⟨id, tree, hl, ⟨hb, fun hfound => ?_⟩, hline⟩
  rcases hg.old hfound with rfl | hold
  · rw [hfound.unique hline]
    exact .root
  · exact absurd rfl hold.live

/-- So the first frontier of a search is in hand. -/
theorem holds_ofRoot {G : Type} [RandomSource.RandomSource G] {width : Nat} {top : NodeId}
    {source : G} {searcher : Searcher StateTree NodeId G} (target : Target)
    (made : root StateTree.empty = .ok top tree)
    (begins : Searcher.ofRoot width tree top source = .ok searcher) :
    Holds target searcher.state searcher.frontier 0 ∧ searcher.frontier = [top] ∧
      Line searcher.state top [(top, .root)] := by
  obtain ⟨_, _, hr, hg, hline⟩ := root_ground target.lenient
  cases made.symm.trans hr
  unfold Searcher.ofRoot at begins
  split at begins
  · cases begins
  · cases begins
    exact ⟨⟨hg, nofun⟩, rfl, hline⟩

end TernarySynth.Proofs.TargetLedger
