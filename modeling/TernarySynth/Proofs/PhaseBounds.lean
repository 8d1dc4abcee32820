import TernarySynth.Proofs.SearchBalance

/-!
# Bounds on the phases of an expansion

An expansion that comes to its end within some number of phases comes to the same end
within any larger number, and so does a round. So where every expansion of a search
returns, each after as many phases as it takes, there is one bound within which all
of its next round returns.
-/

namespace TernarySynth.Proofs.PhaseBounds

open RandomSource StateTree Speculation BeamSearch TargetSearch
open TreeLine LineMachine Lookahead TargetLedger ExpansionEnd

variable {target : Target} {tree tree' : StateTree} {origin current : NodeId}
variable {expansion : Expansion NodeId} {phases more : Nat}

/-- An expansion depends on the target, but not on the bound that comes with it. -/
theorem expandFrom_within (target : Target) (bound : Nat) (origin : NodeId) (phases : Nat)
    (current : NodeId) :
    (within target bound).expandFrom origin phases current =
      target.expandFrom origin phases current := by
  induction phases generalizing current with
  | zero => rfl
  | succ phases ih =>
    simp only [Target.expandFrom, ih]
    rfl

/-- An expansion that returns within a number of phases returns the same within more. -/
theorem expandFrom_mono (hle : phases ≤ more)
    (ok : target.expandFrom origin phases current tree = .ok expansion tree') :
    target.expandFrom origin more current tree = .ok expansion tree' := by
  induction phases generalizing more current tree with
  | zero => cases ok
  | succ phases ih =>
    obtain ⟨more, rfl⟩ : ∃ n, more = n + 1 := ⟨more - 1, by omega⟩
    have hle' : phases ≤ more := Nat.le_of_succ_le_succ hle
    simp only [Target.expandFrom, bind, EStateM.bind] at ok ⊢
    cases ht : transition target.lenient current tree with
    | error reason middle =>
      rw [ht] at ok
      cases ok
    | ok answer middle =>
      rw [ht] at ok
      cases answer with
      | stepped child =>
        cases hd : Target.dropBetween origin current middle with
        | error reason after =>
          simp only [EStateM.bind, hd] at ok
          cases ok
        | ok value after =>
          simp only [EStateM.bind, hd] at ok ⊢
          cases hn : StateTree.get child after with
          | error reason last =>
            rw [hn] at ok
            cases ok
          | ok node last =>
            rw [hn] at ok
            dsimp only at ok ⊢
            by_cases htrack : target.onTrack node.output = true
            · rw [if_pos htrack] at ok ⊢
              exact ih hle' ok
            · rw [if_neg htrack] at ok ⊢
              exact ok
      | exited => exact ok
      | needsDecision address => exact ok
      | failed fault => exact ok

section Policies

/-- The expansion of a policy with a bound. -/
theorem expand_within (target : Target) (phases : Nat) (tree : StateTree) (id : NodeId) :
    (within target phases).policy.expand tree id =
      outcome (target.expandFrom id phases id tree) := by
  change outcome ((within target phases).expandFrom id phases id tree) = _
  rw [expandFrom_within]

/-- Releases take no phases. -/
theorem releaseAll_within (target : Target) (phases : Nat) (ids : List NodeId) (tree : StateTree) :
    (within target phases).policy.releaseAll ids tree = target.policy.releaseAll ids tree := by
  induction ids generalizing tree with
  | nil => rfl
  | cons id ids ih =>
    have hr : (within target phases).policy.release = target.policy.release := rfl
    simp only [Policy.releaseAll, hr, ih]

/-- Nor do scores. -/
theorem scoreAll_within (target : Target) (phases : Nat) (tree : StateTree) (ids : List NodeId)
    (scored : Array (Int × NodeId)) :
    (within target phases).policy.scoreAll tree ids scored =
      target.policy.scoreAll tree ids scored := by
  induction ids generalizing scored with
  | nil => rfl
  | cons id ids ih =>
    have hs : (within target phases).policy.score = target.policy.score := rfl
    simp only [Policy.scoreAll, hs, ih]

/-- A policy with a larger bound expands as one with a smaller bound, where that returns. -/
theorem expand_mono {answer : Expansion NodeId × StateTree} (hle : phases ≤ more)
    (ok : (within target phases).policy.expand tree origin = .ok answer) :
    (within target more).policy.expand tree origin = .ok answer := by
  rw [expand_within] at ok ⊢
  cases he : target.expandFrom origin phases origin tree with
  | error reason after =>
    rw [he] at ok
    cases ok
  | ok value after =>
    rw [he] at ok
    rw [expandFrom_mono hle he]
    exact ok

/-- So do all expansions of a round. -/
theorem harvest_mono {ids : List NodeId} {found : Harvest NodeId}
    {result : Harvest NodeId × StateTree} (hle : phases ≤ more)
    (ok : (within target phases).policy.harvest ids found tree = .ok result) :
    (within target more).policy.harvest ids found tree = .ok result := by
  induction ids generalizing found tree with
  | nil => exact ok
  | cons id ids ih =>
    have hrelease : (within target more).policy.release =
      (within target phases).policy.release := rfl
    rw [Policy.harvest] at ok ⊢
    rw [hrelease]
    cases he : (within target phases).policy.expand tree id with
    | error reason =>
      rw [he] at ok
      cases ok
    | ok answer =>
      rw [he] at ok
      rw [expand_mono hle he]
      dsimp only at ok ⊢
      cases hr : (within target phases).policy.release answer.2 id with
      | error reason =>
        rw [hr] at ok
        cases ok
      | ok after =>
        rw [hr] at ok
        exact ih ok

end Policies

variable {G : Type} [RandomSource G] {searcher : Searcher StateTree NodeId G}
variable {goals : Multiset NodeId}

/-- And so does the round itself. -/
theorem searchRound_mono {result : List NodeId × Searcher StateTree NodeId G}
    (hle : phases ≤ more) (ok : searcher.searchRound (within target phases).policy = .ok result) :
    searcher.searchRound (within target more).policy = .ok result := by
  obtain ⟨width, state, frontier, round, source⟩ := searcher
  rw [Searcher.searchRound] at ok ⊢
  cases hh : (within target phases).policy.harvest frontier .empty state with
  | error reason =>
    rw [hh] at ok
    cases ok
  | ok answer =>
    rw [hh] at ok
    rw [harvest_mono hle hh]
    simp only [releaseAll_within, scoreAll_within] at ok ⊢
    exact ok

/-- Every expansion of the next round returns, after as many phases as it takes. -/
def Returns (target : Target) (searcher : Searcher StateTree NodeId G) : Prop :=
  ∀ id ∈ searcher.frontier, ∃ phases expansion tree,
    target.expandFrom id phases id searcher.state = .ok expansion tree

/-- Then the round does within some bound, and only then. -/
theorem returns_iff (h : Holds target searcher.state searcher.frontier goals) :
    Returns target searcher ↔
      ∃ phases result, searcher.searchRound (within target phases).policy = .ok result := by
  have hheld : ∀ id ∈ searcher.frontier, id ∈ (searcher.frontier : Multiset NodeId) + goals :=
    fun id hm => Multiset.mem_add.mpr (.inl (Multiset.mem_coe.mpr hm))
  let settled (phases : Nat) (id : NodeId) : Prop := ∀ line, Line searcher.state id line →
    fate target phases (machineOf (nodesOf line)) ≠ none
  have hround : ∀ phases, (∃ result, searcher.searchRound (within target phases).policy =
      .ok result) ↔ ∀ id ∈ searcher.frontier, settled phases id := by
    intro phases
    rw [searchRound_ok_iff ((holds_within phases).mpr h)]
    simp only [ne_eq, fate_within]
    rfl
  constructor
  · intro hreturns
    have hfates : ∀ id ∈ searcher.frontier, ∃ phases, settled phases id := by
      intro id hm
      obtain ⟨phases, expansion, tree, ok⟩ := hreturns id hm
      refine ⟨phases, fun line hline => ?_⟩
      exact (expansion_ends_iff_fate h.ground (hheld id hm) hline phases).mp ⟨expansion, tree, ok⟩
    have hbound : ∃ phases, ∀ id ∈ searcher.frontier, settled phases id := by
      refine exists_common_bound (fun {i j id} hij hi line hline => ?_) hfates
      obtain ⟨found, hf⟩ := Option.ne_none_iff_exists'.mp (hi line hline)
      rw [fate_mono hij hf]
      nofun
    obtain ⟨phases, hall⟩ := hbound
    exact ⟨phases, (hround phases).mpr hall⟩
  · rintro ⟨phases, hresult⟩ id hm
    obtain ⟨node, line, hline⟩ := h.ground.books.line_of_mem (hheld id hm)
    have hsettled := (hround phases).mp hresult id hm _ hline
    exact ⟨phases, (expansion_ends_iff_fate h.ground (hheld id hm) hline phases).mpr hsettled⟩

end TernarySynth.Proofs.PhaseBounds
