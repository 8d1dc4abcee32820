import Mathlib.Algebra.Order.Group.Multiset
import TernarySynth.BeamSearch

/-!
# The ledger of a search

A search has nodes in hand: candidates that it may still expand, and goals that
it has found. Every node that an expansion brings up is taken into one of these
two accounts, and every node that is released is taken out of it. So whatever a
policy keeps when it expands and releases the nodes of the accounts is kept by
rounds and by runs of rounds; which children a round selects does not matter.
-/

namespace TernarySynth.Proofs.RoundLedger

open RandomSource BeamSearch

variable {σ ε N : Type}

/-- What a policy keeps while a search works with it. The two multisets are the
candidates and the goals that the search has in hand. -/
structure Kept (policy : Policy σ ε N) (holds : σ → Multiset N → Multiset N → Prop) : Prop where
  /-- Expanding a candidate may bring up candidates. -/
  children : ∀ {state state' : σ} {candidates goals : Multiset N} {node : N} {nodes : List N},
    holds state candidates goals → node ∈ candidates →
    policy.expand state node = .ok (.children nodes, state') →
    holds state' (nodes + candidates) goals
  /-- Expanding a candidate may bring up a goal. -/
  goal : ∀ {state state' : σ} {candidates goals : Multiset N} {node goal : N},
    holds state candidates goals → node ∈ candidates →
    policy.expand state node = .ok (.goal goal, state') →
    holds state' candidates (goal ::ₘ goals)
  /-- A candidate may be released. -/
  release : ∀ {state state' : σ} {candidates goals : Multiset N} {node : N},
    holds state (node ::ₘ candidates) goals → policy.release state node = .ok state' →
    holds state' candidates goals
  /-- A goal may be released. -/
  abandon : ∀ {state state' : σ} {candidates goals : Multiset N} {node : N},
    holds state candidates (node ::ₘ goals) → policy.release state node = .ok state' →
    holds state' candidates goals

variable {policy : Policy σ ε N} {holds : σ → Multiset N → Multiset N → Prop}
variable {state state' : σ} {candidates goals : Multiset N}

/-- Candidates may be released one after the other. -/
theorem Kept.releaseAll (k : Kept policy holds) {nodes : List N}
    (h : holds state (nodes + candidates) goals)
    (ok : policy.releaseAll nodes state = .ok state') : holds state' candidates goals := by
  induction nodes generalizing state with
  | nil =>
    cases ok
    rwa [Multiset.coe_nil, zero_add] at h
  | cons node nodes ih =>
    rw [← Multiset.cons_coe, Multiset.cons_add] at h
    rw [Policy.releaseAll] at ok
    split at ok
    next => cases ok
    next middle hr => exact ih (k.release h hr) ok

/-- Goals may be released one after the other. -/
theorem Kept.abandonAll (k : Kept policy holds) {nodes : List N}
    (h : holds state candidates (nodes + goals))
    (ok : policy.releaseAll nodes state = .ok state') : holds state' candidates goals := by
  induction nodes generalizing state with
  | nil =>
    cases ok
    rwa [Multiset.coe_nil, zero_add] at h
  | cons node nodes ih =>
    rw [← Multiset.cons_coe, Multiset.cons_add] at h
    rw [Policy.releaseAll] at ok
    split at ok
    next => cases ok
    next middle hr => exact ih (k.abandon h hr) ok

/-- Adding an expansion to a harvest adds its nodes to one of the accounts. -/
theorem add_children (found : Harvest N) (nodes : List N) :
    (found.add (.children nodes)).goals = found.goals ∧
      (found.add (.children nodes)).pool.toList = found.pool.toList ++ nodes := by
  refine ⟨rfl, ?_⟩
  simp only [Harvest.add]
  induction nodes generalizing found with
  | nil => exact (List.append_nil _).symm
  | cons node nodes ih =>
    have hn := ih ⟨found.goals, found.pool.push node⟩
    rw [Array.toList_push, List.append_assoc] at hn
    exact hn

/-- What a harvest has brought up is in hand, and the nodes that were expanded
are not any more. -/
theorem Kept.harvest (k : Kept policy holds) {nodes : List N} {found found' : Harvest N}
    (h : holds state (nodes + (found.pool.toList + candidates)) (found.goals.toList + goals))
    (ok : policy.harvest nodes found state = .ok (found', state')) :
    holds state' (found'.pool.toList + candidates) (found'.goals.toList + goals) := by
  induction nodes generalizing state found with
  | nil =>
    cases ok
    rwa [Multiset.coe_nil, zero_add] at h
  | cons node nodes ih =>
    rw [← Multiset.cons_coe, Multiset.cons_add] at h
    rw [Policy.harvest] at ok
    split at ok
    next => cases ok
    next expansion middle he =>
      split at ok
      next => cases ok
      next after hr =>
        refine ih ?_ ok
        cases expansion with
        | goal goal =>
          have hg := k.release (k.goal h (Multiset.mem_cons_self node _) he) hr
          have hgoals : ((found.add (.goal goal)).goals.toList : Multiset N) =
              goal ::ₘ found.goals.toList := by
            change ((found.goals.push goal).toList : Multiset N) = _
            rw [Array.toList_push, ← Multiset.coe_add, add_comm]
            rfl
          rw [hgoals, Multiset.cons_add]
          exact hg
        | children new =>
          have hg := k.children h (Multiset.mem_cons_self node _) he
          rw [Multiset.add_cons] at hg
          have hg' := k.release hg hr
          obtain ⟨hgoals, hpool⟩ := add_children found new
          have hmove : (nodes + ((found.pool.toList ++ new : List N) + candidates) : Multiset N) =
              new + (nodes + (found.pool.toList + candidates)) := by
            rw [← Multiset.coe_add, add_comm _ (new : Multiset N), add_assoc, add_left_comm]
          rw [hgoals, hpool, hmove]
          exact hg'

/-- So is what a round has harvested. -/
theorem Kept.harvest_empty (k : Kept policy holds) {nodes : List N} {found : Harvest N}
    (h : holds state (nodes + candidates) goals)
    (ok : policy.harvest nodes .empty state = .ok (found, state')) :
    holds state' (found.pool.toList + candidates) (found.goals.toList + goals) := by
  refine k.harvest ?_ ok
  change holds state (nodes + (0 + candidates)) (0 + goals)
  rwa [zero_add, zero_add]

/-- Scores are put beside the nodes and leave them in order. -/
theorem scoreAll_snd {nodes : List N} {scored scored' : Array (Int × N)}
    (ok : policy.scoreAll state nodes scored = .ok scored') :
    scored'.toList.map Prod.snd = scored.toList.map Prod.snd ++ nodes := by
  induction nodes generalizing scored with
  | nil =>
    cases ok
    exact (List.append_nil _).symm
  | cons node nodes ih =>
    rw [Policy.scoreAll] at ok
    split at ok
    next => cases ok
    next score hs =>
      rw [ih ok, Array.toList_push, List.map_append, List.append_assoc]
      rfl

/-- Shuffling the tied nodes changes the order only. -/
theorem shuffleTies_perm {G : Type} [RandomSource G] (cutoff : Int) (ranked : List (Int × N))
    (source : G) : (shuffleTies cutoff ranked source).1.Perm ranked := by
  unfold shuffleTies
  dsimp only
  refine ((List.Perm.append_right _ (shuffle_perm _ source)).append_left _).trans ?_
  rw [List.takeWhile_append_dropWhile, List.takeWhile_append_dropWhile]

/-- A selection gives out or denies a place to every node. -/
theorem select_perm {G : Type} [RandomSource G] (width : Nat) (ranked : List (Int × N))
    (source : G) :
    ((select width ranked source).1.kept ++ (select width ranked source).1.dropped).Perm
      (ranked.map Prod.snd) := by
  unfold select
  split
  · dsimp only
    rw [← List.map_append, List.take_append_drop]
    exact (shuffleTies_perm _ ranked source).map Prod.snd
  · rw [List.append_nil]

/-- The nodes that are ranked are those that were scored. -/
theorem rankByScore_perm (scored : List (Int × N)) : (rankByScore scored).Perm scored :=
  List.mergeSort_perm scored _

/-- The nodes that a round selects from and gives no place are, all in all, the
nodes that were scored. -/
theorem selection_eq {G : Type} [RandomSource G] {nodes : List N} {scored : Array (Int × N)}
    (ok : policy.scoreAll state nodes #[] = .ok scored) (width : Nat) (source : G) :
    let selection := (select width (rankByScore scored.toList) source).1
    (nodes : Multiset N) = selection.dropped + selection.kept := by
  have hs := scoreAll_snd ok
  rw [List.map_nil, List.nil_append] at hs
  dsimp only
  rw [add_comm, Multiset.coe_add, ← hs, Multiset.coe_eq_coe]
  exact (((select_perm _ _ _).trans ((rankByScore_perm _).map Prod.snd))).symm

variable {G ω : Type} [RandomSource G]

/-- After a round its goals and its frontier are in hand. -/
theorem Kept.searchRound (k : Kept policy holds) {searcher searcher' : Searcher σ N G}
    {found : List N} (h : holds searcher.state (searcher.frontier + candidates) goals)
    (ok : searcher.searchRound policy = .ok (found, searcher')) :
    holds searcher'.state (searcher'.frontier + candidates) (found + goals) := by
  obtain ⟨width, state, frontier, round, source⟩ := searcher
  rw [Searcher.searchRound] at ok
  split at ok
  next => cases ok
  next harvest middle hh =>
    split at ok
    next => cases ok
    next scored hs =>
      dsimp only at ok h
      split at ok
      next => cases ok
      next after hr =>
        cases ok
        dsimp only
        have hharvest := k.harvest_empty h hh
        rw [selection_eq hs width source, add_assoc] at hharvest
        exact k.releaseAll hharvest hr

/-- Two rounds after each other have been made where something can be said about both. -/
theorem rounds_of_answer {α : Type} {policy : Policy σ ε N} {searcher : Searcher σ N G}
    {say : List N × Searcher σ N G → List N × Searcher σ N G → α} {answer : α}
    (h : ((searcher.searchRound policy).bind fun first =>
      (first.2.searchRound policy).map fun last => say first last).toOption = some answer) :
    ∃ first last, searcher.searchRound policy = .ok first ∧
      first.2.searchRound policy = .ok last ∧ say first last = answer := by
  cases hfirst : searcher.searchRound policy with
  | error reason =>
    rw [hfirst] at h
    cases h
  | ok first =>
    rw [hfirst] at h
    cases hlast : first.2.searchRound policy with
    | error reason =>
      simp only [Except.bind, hlast] at h
      cases h
    | ok last =>
      simp only [Except.bind, hlast] at h
      exact ⟨first, last, rfl, hlast, Option.some.inj h⟩

/-- A run that returns, round by round: it comes to its limit, its frontier dies out or its
observer stops it; or it makes a round, and goes on where that has found nothing. Of several
goals all but the first are released. -/
inductive Runs (policy : Policy σ ε N) (observer : ω → Searcher σ N G → ω × Bool) :
    Nat → ω → Searcher σ N G → RunEnd N → ω → Searcher σ N G → Prop where
  /-- No round is left. -/
  | unfinished {notes : ω} {searcher : Searcher σ N G} :
      Runs policy observer 0 notes searcher .unfinished notes searcher
  /-- There is no frontier. -/
  | exhausted {limit : Nat} {notes : ω} {searcher : Searcher σ N G}
      (dead : searcher.frontier = []) :
      Runs policy observer (limit + 1) notes searcher .exhausted notes searcher
  /-- The observer does not go on. -/
  | stopped {limit : Nat} {notes seen : ω} {searcher : Searcher σ N G}
      (busy : searcher.frontier ≠ []) (stops : observer notes searcher = (seen, false)) :
      Runs policy observer (limit + 1) notes searcher .stopped seen searcher
  /-- A round finds nothing. -/
  | quiet {limit : Nat} {notes seen notes' : ω} {searcher next last : Searcher σ N G}
      {ending : RunEnd N} (busy : searcher.frontier ≠ [])
      (goesOn : observer notes searcher = (seen, true))
      (ran : searcher.searchRound policy = .ok ([], next))
      (rest : Runs policy observer limit seen next ending notes' last) :
      Runs policy observer (limit + 1) notes searcher ending notes' last
  /-- A round finds goals. -/
  | found {limit : Nat} {notes seen : ω} {searcher next : Searcher σ N G} {goal : N}
      {others : List N} {state : σ} (busy : searcher.frontier ≠ [])
      (goesOn : observer notes searcher = (seen, true))
      (ran : searcher.searchRound policy = .ok (goal :: others, next))
      (released : policy.releaseAll others next.state = .ok state) :
      Runs policy observer (limit + 1) notes searcher (.found goal) seen
        { next with state := state }

/-- These are the runs that return. -/
theorem run_iff {observer : ω → Searcher σ N G → ω × Bool} {limit : Nat} {notes notes' : ω}
    {searcher last : Searcher σ N G} {ending : RunEnd N} :
    searcher.run policy observer limit notes = .ok (ending, notes', last) ↔
      Runs policy observer limit notes searcher ending notes' last := by
  constructor
  · intro ok
    induction limit generalizing notes searcher with
    | zero =>
      cases ok
      exact .unfinished
    | succ limit ih =>
      rw [Searcher.run] at ok
      by_cases hempty : searcher.frontier.isEmpty = true
      · rw [if_pos hempty] at ok
        cases ok
        exact .exhausted (List.isEmpty_iff.mp hempty)
      · have busy : searcher.frontier ≠ [] := fun h => hempty (List.isEmpty_iff.mpr h)
        rw [if_neg hempty] at ok
        rcases hwatch : observer notes searcher with ⟨seen, onward⟩
        rw [hwatch] at ok
        cases onward with
        | false =>
          cases ok
          exact .stopped busy hwatch
        | true =>
          dsimp only at ok
          split at ok
          next => cases ok
          next next hround => exact .quiet busy hwatch hround (ih ok)
          next goal others width state frontier round source hround =>
            split at ok
            next => cases ok
            next after hr =>
              cases ok
              exact .found busy hwatch hround hr
  · intro runs
    induction runs with
    | unfinished => rfl
    | exhausted dead => rw [Searcher.run, if_pos (List.isEmpty_iff.mpr dead)]
    | stopped busy stops => rw [Searcher.run, if_neg fun h => busy (List.isEmpty_iff.mp h), stops]
    | quiet busy goesOn ran rest ih =>
      rw [Searcher.run, if_neg fun h => busy (List.isEmpty_iff.mp h), goesOn]
      dsimp only
      rw [ran]
      exact ih
    | found busy goesOn ran released =>
      rw [Searcher.run, if_neg fun h => busy (List.isEmpty_iff.mp h), goesOn]
      dsimp only
      rw [ran]
      dsimp only
      rw [released]

/-- The goal with which a run has ended. -/
def goalOf : RunEnd N → Multiset N
  | .found goal => {goal}
  | .exhausted => 0
  | .stopped => 0
  | .unfinished => 0

/-- After a run its frontier is in hand, and so is the goal that it has found. -/
theorem Kept.run (k : Kept policy holds) {observer : ω → Searcher σ N G → ω × Bool}
    {limit : Nat} {notes notes' : ω} {searcher searcher' : Searcher σ N G} {ending : RunEnd N}
    (h : holds searcher.state (searcher.frontier + candidates) goals)
    (ok : searcher.run policy observer limit notes = .ok (ending, notes', searcher')) :
    holds searcher'.state (searcher'.frontier + candidates) (goalOf ending + goals) := by
  rw [run_iff] at ok
  induction ok with
  | unfinished => rwa [goalOf, zero_add]
  | exhausted => rwa [goalOf, zero_add]
  | stopped => rwa [goalOf, zero_add]
  | quiet busy goesOn ran rest ih =>
    have hround := k.searchRound h ran
    rw [Multiset.coe_nil, zero_add] at hround
    exact ih hround
  | found busy goesOn ran released =>
    have hround := k.searchRound h ran
    rw [← Multiset.cons_coe, Multiset.cons_add, ← Multiset.add_cons] at hround
    exact k.abandonAll hround released

end TernarySynth.Proofs.RoundLedger
