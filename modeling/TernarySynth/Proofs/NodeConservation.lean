import Mathlib
import TernarySynth.Proofs.RoundLedger

/-!
# No node is lost

A search gets nodes from its policy, as the root and in the answers of expansions,
and it gets rid of them again: it hands them out as goals, or it releases them. An
audit writes both down beside the state of the policy, and changes nothing else
about the search. Whatever rounds and runs are asked of a search, the nodes that
it was given are at any time those of its frontier, those that it has handed out
and those that it has released.
-/

namespace TernarySynth.Proofs.NodeConservation

open RandomSource BeamSearch RoundLedger

/-- What is asked of a search. -/
inductive Request (σ N G : Type) : Type 1 where
  /-- A round. -/
  | round
  /-- Rounds until one finds a goal, the frontier dies out or the observer asks to
  stop, but at most `limit` of them. -/
  | run {ω : Type} (observer : ω → Searcher σ N G → ω × Bool) (notes : ω) (limit : Nat)

/-- The nodes that an expansion has answered. -/
def answered {N : Type} : Expansion N → Multiset N
  | .goal node => {node}
  | .children nodes => nodes

section Conducting

variable {σ ε N G : Type} [RandomSource G]

/-- Do what is asked for. The goals that are handed out come with the search
afterwards. -/
def serve (policy : Policy σ ε N) (searcher : Searcher σ N G) :
    Request σ N G → Except ε (Multiset N × Searcher σ N G)
  | .round =>
    match searcher.searchRound policy with
    | .error reason => .error reason
    | .ok (goals, searcher) => .ok (goals, searcher)
  | .run observer notes limit =>
    match searcher.run policy observer limit notes with
    | .error reason => .error reason
    | .ok (ending, _, searcher) => .ok (goalOf ending, searcher)

/-- Do all that is asked for, one after the other. -/
def conduct (policy : Policy σ ε N) :
    List (Request σ N G) → Searcher σ N G → Except ε (Multiset N × Searcher σ N G)
  | [], searcher => .ok (0, searcher)
  | request :: requests, searcher =>
    match serve policy searcher request with
    | .error reason => .error reason
    | .ok (goals, searcher) =>
      match conduct policy requests searcher with
      | .error reason => .error reason
      | .ok (others, searcher) => .ok (goals + others, searcher)

end Conducting

/-- The state of a policy, and the nodes that have passed between it and a search. -/
structure Audit (σ N : Type) where
  /-- The state itself. -/
  state : σ
  /-- All children and all goals that expansions have answered. -/
  born : Multiset N
  /-- All nodes that were released. -/
  released : Multiset N

/-- A policy that does the same and keeps an audit. -/
def audited {σ ε N : Type} (policy : Policy σ ε N) : Policy (Audit σ N) ε N where
  expand audit node :=
    match policy.expand audit.state node with
    | .error reason => .error reason
    | .ok (expansion, state) =>
      .ok (expansion, ⟨state, answered expansion + audit.born, audit.released⟩)
  score audit node := policy.score audit.state node
  release audit node :=
    match policy.release audit.state node with
    | .error reason => .error reason
    | .ok state => .ok ⟨state, audit.born, node ::ₘ audit.released⟩

section Viewing

variable {σ τ ε N G ω : Type}

/-- A policy that does the same as a plain one on a part of its state. -/
structure Shows (policy : Policy τ ε N) (plain : Policy σ ε N) (view : τ → σ) : Prop where
  /-- Expansions answer the same. -/
  expand_eq : ∀ state node,
    (policy.expand state node).map (Prod.map id view) = plain.expand (view state) node
  /-- Nodes rank the same. -/
  score_eq : ∀ state node, policy.score state node = plain.score (view state) node
  /-- Releases have the same effect. -/
  release_eq : ∀ state node, (policy.release state node).map view = plain.release (view state) node

/-- The search that is seen when only a part of the state is looked at. -/
def seen (view : τ → σ) (searcher : Searcher τ N G) : Searcher σ N G :=
  ⟨searcher.width, view searcher.state, searcher.frontier, searcher.round, searcher.source⟩

/-- A request whose observer looks only at a part of the state. -/
def Request.through (view : τ → σ) : Request σ N G → Request τ N G
  | .round => .round
  | .run observer notes limit =>
    .run (fun notes searcher => observer notes (seen view searcher)) notes limit

variable {policy : Policy τ ε N} {plain : Policy σ ε N} {view : τ → σ}

/-- Releasing nodes shows the same. -/
theorem Shows.releaseAll (h : Shows policy plain view) (nodes : List N) (state : τ) :
    (policy.releaseAll nodes state).map view = plain.releaseAll nodes (view state) := by
  induction nodes generalizing state with
  | nil => rfl
  | cons node nodes ih =>
    rw [Policy.releaseAll, Policy.releaseAll, ← h.release_eq]
    cases policy.release state node with
    | error reason => rfl
    | ok state => exact ih state

/-- Harvests show the same. -/
theorem Shows.harvest (h : Shows policy plain view) (nodes : List N) (found : Harvest N)
    (state : τ) :
    (policy.harvest nodes found state).map (Prod.map id view) =
      plain.harvest nodes found (view state) := by
  induction nodes generalizing found state with
  | nil => rfl
  | cons node nodes ih =>
    rw [Policy.harvest, Policy.harvest, ← h.expand_eq]
    cases policy.expand state node with
    | error reason => rfl
    | ok answer =>
      obtain ⟨expansion, state⟩ := answer
      dsimp only [Except.map, Prod.map]
      rw [← h.release_eq]
      cases policy.release state node with
      | error reason => rfl
      | ok state => exact ih (found.add expansion) state

/-- Nodes are scored the same. -/
theorem Shows.scoreAll (h : Shows policy plain view) (state : τ) (nodes : List N)
    (scored : Array (Int × N)) :
    policy.scoreAll state nodes scored = plain.scoreAll (view state) nodes scored := by
  induction nodes generalizing scored with
  | nil => rfl
  | cons node nodes ih =>
    rw [Policy.scoreAll, Policy.scoreAll, h.score_eq]
    cases plain.score (view state) node with
    | error reason => rfl
    | ok score => exact ih _

variable [RandomSource G]

/-- Rounds show the same. -/
theorem Shows.searchRound (h : Shows policy plain view) (searcher : Searcher τ N G) :
    (searcher.searchRound policy).map (Prod.map id (seen view)) =
      (seen view searcher).searchRound plain := by
  obtain ⟨width, state, frontier, round, source⟩ := searcher
  rw [seen, Searcher.searchRound, Searcher.searchRound, ← h.harvest]
  cases policy.harvest frontier .empty state with
  | error reason => rfl
  | ok answer =>
    obtain ⟨found, state⟩ := answer
    dsimp only [Except.map, Prod.map, id]
    rw [← h.scoreAll]
    cases policy.scoreAll state found.pool.toList #[] with
    | error reason => rfl
    | ok scored =>
      dsimp only
      rw [← h.releaseAll]
      cases policy.releaseAll
        (select width (rankByScore scored.toList) source).1.dropped state <;> rfl

/-- Runs show the same, if their observer sees no more than that. -/
theorem Shows.run (h : Shows policy plain view) (observer : ω → Searcher σ N G → ω × Bool)
    (limit : Nat) (notes : ω) (searcher : Searcher τ N G) :
    (searcher.run policy (fun notes searcher => observer notes (seen view searcher)) limit
        notes).map (fun answer => (answer.1, answer.2.1, seen view answer.2.2)) =
      (seen view searcher).run plain observer limit notes := by
  induction limit generalizing notes searcher with
  | zero => rfl
  | succ limit ih =>
    rw [Searcher.run, Searcher.run]
    by_cases hempty : searcher.frontier.isEmpty = true
    · rw [if_pos hempty, if_pos (by exact hempty)]
      rfl
    · rw [if_neg hempty, if_neg (by exact hempty), ← h.searchRound]
      cases observer notes (seen view searcher) with
      | mk notes onward =>
        cases onward with
        | false => rfl
        | true =>
          cases searcher.searchRound policy with
          | error reason => rfl
          | ok answer =>
            obtain ⟨goals, searcher⟩ := answer
            cases goals with
            | nil => exact ih notes searcher
            | cons goal others =>
              dsimp only [Except.map, Prod.map, id, seen]
              rw [← h.releaseAll]
              cases policy.releaseAll others searcher.state <;> rfl

/-- Whatever is asked for shows the same. -/
theorem Shows.serve (h : Shows policy plain view) (searcher : Searcher τ N G)
    (request : Request σ N G) :
    (serve policy searcher (request.through view)).map (Prod.map id (seen view)) =
      serve plain (seen view searcher) request := by
  cases request with
  | round =>
    simp only [NodeConservation.serve, Request.through, ← h.searchRound]
    cases searcher.searchRound policy <;> rfl
  | run observer notes limit =>
    simp only [NodeConservation.serve, Request.through, ← h.run]
    cases searcher.run policy _ limit notes <;> rfl

/-- So does all that is asked for one after the other. -/
theorem Shows.conduct (h : Shows policy plain view) (requests : List (Request σ N G))
    (searcher : Searcher τ N G) :
    (conduct policy (requests.map (Request.through view)) searcher).map
        (Prod.map id (seen view)) = conduct plain requests (seen view searcher) := by
  induction requests generalizing searcher with
  | nil => rfl
  | cons request requests ih =>
    rw [List.map_cons, NodeConservation.conduct, NodeConservation.conduct, ← h.serve]
    cases NodeConservation.serve policy searcher (request.through view) with
    | error reason => rfl
    | ok answer =>
      obtain ⟨goals, searcher⟩ := answer
      dsimp only [Except.map, Prod.map, id]
      rw [← ih]
      cases NodeConservation.conduct policy (requests.map (Request.through view)) searcher <;> rfl

end Viewing

section Steadiness

variable {σ ε N G ω : Type} {policy : Policy σ ε N}

/-- A policy that never breaks down. -/
structure Steady (policy : Policy σ ε N) : Prop where
  /-- Every node can be expanded. -/
  expand_ok : ∀ state node, ∃ answer, policy.expand state node = .ok answer
  /-- Every node has a score. -/
  score_ok : ∀ state node, ∃ score, policy.score state node = .ok score
  /-- Every node can be released. -/
  release_ok : ∀ state node, ∃ state', policy.release state node = .ok state'

/-- It releases all nodes. -/
theorem Steady.releaseAll (h : Steady policy) (nodes : List N) (state : σ) :
    ∃ state', policy.releaseAll nodes state = .ok state' := by
  induction nodes generalizing state with
  | nil => exact ⟨state, rfl⟩
  | cons node nodes ih =>
    obtain ⟨middle, hr⟩ := h.release_ok state node
    simp only [Policy.releaseAll, hr]
    exact ih middle

/-- It expands all nodes. -/
theorem Steady.harvest (h : Steady policy) (nodes : List N) (found : Harvest N) (state : σ) :
    ∃ answer, policy.harvest nodes found state = .ok answer := by
  induction nodes generalizing found state with
  | nil => exact ⟨_, rfl⟩
  | cons node nodes ih =>
    obtain ⟨⟨expansion, middle⟩, he⟩ := h.expand_ok state node
    obtain ⟨after, hr⟩ := h.release_ok middle node
    simp only [Policy.harvest, he, hr]
    exact ih _ after

/-- It scores all nodes. -/
theorem Steady.scoreAll (h : Steady policy) (state : σ) (nodes : List N)
    (scored : Array (Int × N)) : ∃ answer, policy.scoreAll state nodes scored = .ok answer := by
  induction nodes generalizing scored with
  | nil => exact ⟨scored, rfl⟩
  | cons node nodes ih =>
    obtain ⟨score, hs⟩ := h.score_ok state node
    simp only [Policy.scoreAll, hs]
    exact ih _

variable [RandomSource G]

/-- With it every round comes to its end. -/
theorem Steady.searchRound (h : Steady policy) (searcher : Searcher σ N G) :
    ∃ goals searcher', searcher.searchRound policy = .ok (goals, searcher') := by
  obtain ⟨width, state, frontier, round, source⟩ := searcher
  obtain ⟨⟨found, middle⟩, hh⟩ := h.harvest frontier .empty state
  obtain ⟨scored, hs⟩ := h.scoreAll middle found.pool.toList #[]
  obtain ⟨after, hr⟩ :=
    h.releaseAll (select width (rankByScore scored.toList) source).1.dropped middle
  exact ⟨_, _, by simp only [Searcher.searchRound, hh, hs, hr]; rfl⟩

/-- So does every run. -/
theorem Steady.run (h : Steady policy) (observer : ω → Searcher σ N G → ω × Bool) (limit : Nat)
    (notes : ω) (searcher : Searcher σ N G) :
    ∃ answer, searcher.run policy observer limit notes = .ok answer := by
  induction limit generalizing notes searcher with
  | zero => exact ⟨_, rfl⟩
  | succ limit ih =>
    rw [Searcher.run]
    by_cases hempty : searcher.frontier.isEmpty = true
    · rw [if_pos hempty]
      exact ⟨_, rfl⟩
    · rw [if_neg hempty]
      cases observer notes searcher with
      | mk notes onward =>
        cases onward with
        | false => exact ⟨_, rfl⟩
        | true =>
          obtain ⟨goals, searcher', hround⟩ := h.searchRound searcher
          dsimp only
          rw [hround]
          cases goals with
          | nil => exact ih notes searcher'
          | cons goal others =>
            obtain ⟨state, hr⟩ := h.releaseAll others searcher'.state
            dsimp only
            rw [hr]
            exact ⟨_, rfl⟩

/-- And so does all that is asked for. -/
theorem Steady.conduct (h : Steady policy) (requests : List (Request σ N G))
    (searcher : Searcher σ N G) : ∃ answer, conduct policy requests searcher = .ok answer := by
  induction requests generalizing searcher with
  | nil => exact ⟨_, rfl⟩
  | cons request requests ih =>
    have hserved : ∃ goals searcher', serve policy searcher request = .ok (goals, searcher') := by
      cases request with
      | round =>
        obtain ⟨goals, searcher', hround⟩ := h.searchRound searcher
        exact ⟨goals, searcher', by simp only [serve, hround]⟩
      | run observer notes limit =>
        obtain ⟨⟨ending, _, searcher'⟩, hrun⟩ := h.run observer limit notes searcher
        exact ⟨goalOf ending, searcher', by simp only [serve, hrun]⟩
    obtain ⟨goals, searcher', hserved⟩ := hserved
    obtain ⟨⟨others, last⟩, hrest⟩ := ih searcher'
    exact ⟨_, by simp only [NodeConservation.conduct, hserved, hrest]; rfl⟩

end Steadiness

section Balancing

variable {σ ε N G : Type}

/-- An audit is balanced for a search that began with `root`: the nodes that the
search was given are the candidates and the goals that it has, and the released
ones. -/
def Balances (root : N) (audit : Audit σ N) (candidates goals : Multiset N) : Prop :=
  root ::ₘ audit.born = candidates + goals + audit.released

/-- A search keeps the audit balanced. -/
theorem audited_kept (policy : Policy σ ε N) (root : N) :
    Kept (audited policy) (Balances root) := by
  have hexpand : ∀ {audit audit' : Audit σ N} {node : N} {expansion : Expansion N},
      (audited policy).expand audit node = .ok (expansion, audit') →
      audit'.born = answered expansion + audit.born ∧ audit'.released = audit.released := by
    intro audit audit' node expansion ok
    simp only [audited] at ok
    split at ok
    next => cases ok
    next =>
      cases ok
      exact ⟨rfl, rfl⟩
  have hrelease : ∀ {audit audit' : Audit σ N} {node : N},
      (audited policy).release audit node = .ok audit' →
      audit'.born = audit.born ∧ audit'.released = node ::ₘ audit.released := by
    intro audit audit' node ok
    simp only [audited] at ok
    split at ok
    next => cases ok
    next =>
      cases ok
      exact ⟨rfl, rfl⟩
  refine ⟨fun h _ ok => ?_, fun h _ ok => ?_, fun h ok => ?_, fun h ok => ?_⟩
  · obtain ⟨hborn, hreleased⟩ := hexpand ok
    rw [Balances, hborn, hreleased, ← Multiset.add_cons, h, answered, add_assoc, add_assoc,
      add_assoc]
  · obtain ⟨hborn, hreleased⟩ := hexpand ok
    rw [Balances, hborn, hreleased, ← Multiset.add_cons, h, answered, Multiset.singleton_add,
      Multiset.add_cons, Multiset.cons_add]
  · obtain ⟨hborn, hreleased⟩ := hrelease ok
    rw [Balances, hborn, hreleased, h, Multiset.cons_add, Multiset.cons_add, Multiset.add_cons]
  · obtain ⟨hborn, hreleased⟩ := hrelease ok
    rw [Balances, hborn, hreleased, h, Multiset.add_cons, Multiset.cons_add, Multiset.add_cons]

/-- The audit does not show in the state. -/
theorem audited_shows (policy : Policy σ ε N) : Shows (audited policy) policy Audit.state := by
  refine ⟨fun audit node => ?_, fun _ _ => rfl, fun audit node => ?_⟩
  · simp only [audited]
    cases policy.expand audit.state node <;> rfl
  · simp only [audited]
    cases policy.release audit.state node <;> rfl

variable [RandomSource G] {policy : Policy σ ε N} {root : N} {handed goals : Multiset N}
variable {searcher searcher' : Searcher (Audit σ N) N G}

/-- What is asked for keeps the audit balanced, with the goals that are handed out. -/
theorem balances_serve {request : Request (Audit σ N) N G}
    (h : Balances root searcher.state searcher.frontier handed)
    (ok : serve (audited policy) searcher request = .ok (goals, searcher')) :
    Balances root searcher'.state searcher'.frontier (goals + handed) := by
  rw [← add_zero (searcher.frontier : Multiset N)] at h
  cases request with
  | round =>
    rw [serve] at ok
    split at ok
    next => cases ok
    next found after hround =>
      cases ok
      have hafter := (audited_kept policy root).searchRound h hround
      rwa [add_zero] at hafter
  | run observer notes limit =>
    rw [serve] at ok
    split at ok
    next => cases ok
    next ending notes' after hrun =>
      cases ok
      have hafter := (audited_kept policy root).run h hrun
      rwa [add_zero] at hafter

/-- So does all that is asked for one after the other. -/
theorem balances_conduct {requests : List (Request (Audit σ N) N G)}
    (h : Balances root searcher.state searcher.frontier handed)
    (ok : conduct (audited policy) requests searcher = .ok (goals, searcher')) :
    Balances root searcher'.state searcher'.frontier (goals + handed) := by
  induction requests generalizing searcher handed goals with
  | nil =>
    cases ok
    rwa [zero_add]
  | cons request requests ih =>
    rw [conduct] at ok
    split at ok
    next => cases ok
    next first middle hfirst =>
      split at ok
      next => cases ok
      next others last hrest =>
        cases ok
        have hlast := ih (balances_serve h hfirst) hrest
        rwa [← add_assoc, add_comm others first] at hlast

end Balancing

/-- What becomes of the nodes that a search was given: those that it `has`, in its
frontier or handed out, and the released ones are all of them. -/
structure Conserved {N : Type} (given has released : Multiset N) : Prop where
  /-- None is lost, and none comes from nowhere. -/
  given_eq : given = has + released
  /-- None is released more often than it was given. -/
  released_le : released ≤ given
  /-- Where no node is given twice, none is released twice or released and still there. -/
  apart : given.Nodup → released.Nodup ∧ Disjoint has released

/-- A balance says all of this. -/
theorem conserved_of_eq {N : Type} {given has released : Multiset N}
    (h : given = has + released) : Conserved given has released := by
  refine ⟨h, h ▸ Multiset.le_add_left released has, fun hnodup => ?_⟩
  rw [h, Multiset.nodup_add] at hnodup
  exact hnodup.2

/-- A search conserves its nodes, whatever policy it works with and whatever rounds
and runs are asked of it. It takes the same course when an audit is kept, and the
audit comes out even: the root and all nodes that expansions have answered are those
of the frontier, those that were handed out and those that were released. With a
policy that never breaks down all that is asked for is done. -/
theorem nodes_conserved {σ ε N G : Type} [RandomSource G] (policy : Policy σ ε N) {width : Nat}
    (room : 1 ≤ width) (state : σ) (root : N) (source : G) (requests : List (Request σ N G)) :
    ∃ start, Searcher.ofRoot width state root source = .ok start ∧
      (Steady policy → ∃ answer, conduct policy requests start = .ok answer) ∧
      ∀ handed searcher, conduct policy requests start = .ok (handed, searcher) →
        ∃ audit, audit.state = searcher.state ∧
          conduct (audited policy) (requests.map (Request.through Audit.state))
              ⟨width, ⟨state, 0, 0⟩, [root], 1, source⟩ =
            .ok (handed, ⟨searcher.width, audit, searcher.frontier, searcher.round,
              searcher.source⟩) ∧
          Conserved (root ::ₘ audit.born) (searcher.frontier + handed) audit.released := by
  let start : Searcher σ N G := ⟨width, state, [root], 1, source⟩
  let opened : Searcher (Audit σ N) N G := ⟨width, ⟨state, 0, 0⟩, [root], 1, source⟩
  refine ⟨start, if_neg (Nat.one_le_iff_ne_zero.mp room), fun hs => hs.conduct requests start,
    fun handed searcher ok => ?_⟩
  have hshows := (audited_shows policy).conduct requests opened
  rw [show seen Audit.state opened = start from rfl, ok] at hshows
  cases haudit : conduct (audited policy) (requests.map (Request.through Audit.state)) opened with
  | error reason =>
    rw [haudit] at hshows
    cases hshows
  | ok answer =>
    obtain ⟨goals, last⟩ := answer
    rw [haudit] at hshows
    cases hshows
    have hopened : Balances root opened.state opened.frontier 0 := rfl
    have hlast := balances_conduct hopened haudit
    rw [add_zero] at hlast
    exact ⟨last.state, rfl, rfl, conserved_of_eq hlast⟩

/-- A policy over numbers: 0 has three children, which all lead to goals. Its state
is the list of the nodes that were released, the last one first. -/
def threeGoals : Policy (List Nat) Unit Nat where
  expand released node :=
    .ok (if node = 0 then .children [1, 2, 3] else .goal (node * 10), released)
  score _ _ := .ok 0
  release released node := .ok (node :: released)

/-- In its second round a search with this policy finds three goals. A run hands out
the first of them, and of the seven nodes the six others are released. -/
theorem nodes_conserved_of_three_goals :
    ∃ (searcher : Searcher (List Nat) Nat Generator) (audit : Audit (List Nat) Nat),
      1 ≤ 10 ∧ Steady threeGoals ∧
      conduct threeGoals [.run (fun notes _ => (notes, true)) () 5]
        ⟨10, [], [0], 1, Generator.ofNumbers []⟩ = .ok ({10}, searcher) ∧
      searcher.frontier = [] ∧ searcher.state = [30, 20, 3, 2, 1, 0] ∧
      audit.state = searcher.state ∧
      Conserved (0 ::ₘ audit.born) (searcher.frontier + {10}) audit.released := by
  have room : 1 ≤ 10 := by decide
  have steady : Steady threeGoals :=
    ⟨fun _ _ => ⟨_, rfl⟩, fun _ _ => ⟨_, rfl⟩, fun _ _ => ⟨_, rfl⟩⟩
  let requests : List (Request (List Nat) Nat Generator) :=
    [.run (fun notes _ => (notes, true)) () 5]
  obtain ⟨start, begins, -, hall⟩ :=
    nodes_conserved threeGoals room [] 0 (Generator.ofNumbers []) requests
  cases begins
  have hrun : (Searcher.mk 10 [] [0] 1 (Generator.ofNumbers [])).run threeGoals
      (fun notes _ => (notes, true)) 5 () =
        .ok (.found 10, (), ⟨10, [30, 20, 3, 2, 1, 0], [], 3, Generator.ofNumbers []⟩) := by
    cbv
  have hserved : conduct threeGoals requests ⟨10, [], [0], 1, Generator.ofNumbers []⟩ =
      .ok ({10}, ⟨10, [30, 20, 3, 2, 1, 0], [], 3, Generator.ofNumbers []⟩) := by
    simp only [requests, conduct, serve, hrun, goalOf, add_zero]
  obtain ⟨audit, hstate, -, hconserved⟩ := hall _ _ hserved
  exact ⟨_, audit, room, steady, hserved, rfl, rfl, hstate, hconserved⟩

end TernarySynth.Proofs.NodeConservation
