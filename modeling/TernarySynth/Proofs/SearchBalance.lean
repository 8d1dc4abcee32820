import Mathlib
import TernarySynth.Synthesis
import TernarySynth.Proofs.ExpansionEnd
import TernarySynth.Proofs.HeldChains

/-!
# The balance of a search

Whatever rounds and runs are asked of a search, between two of them the live nodes
are those on the lines of its frontier and of the goals that it has handed out and
that were not given back. Every one of these accounts for one handle, so nothing is
held for nobody and nothing is given back too early.
-/

namespace TernarySynth.Proofs.SearchBalance

open RandomSource BeamSearch StateTree TargetSearch Synthesis
open TreeLine HolderBooks HeldChains LineMachine Lookahead NodeExpansion RoundLedger TargetLedger
open ExpansionEnd

/-- The handles on a tree are accounted for: these and no others are in use. -/
structure Accounted (tree : StateTree) (handles : Multiset NodeId) : Prop where
  /-- The live nodes are those on the lines of the handles. -/
  live_iff : ∀ id, Live tree id ↔ ∃ handle ∈ handles, OnLine tree handle id
  /-- Holders of a slot are the handles on it, each counted once, and the live nodes
  that link to it. -/
  holders_eq : ∀ id, tree.holders id = handles.count id + liveLinks tree id
  /-- The live nodes are counted. -/
  live_eq : tree.live = tree.slots.countP isHeld

/-- A tree that keeps its books is accounted for. -/
theorem accounted_of_books {tree : StateTree} {handles : Multiset NodeId}
    (h : Books tree handles) : Accounted tree handles := by
  refine ⟨live_iff_onLine h, fun id => ?_, h.live_eq⟩
  rw [liveLinks_eq h]
  exact h.holders_eq id

variable {G ω : Type} [RandomSource G] {target : Target} {tree : StateTree}
variable {held goals : Multiset NodeId} {searcher : Searcher StateTree NodeId G}

/-- A harvest of nodes in hand breaks down only where a node runs on for longer than
it was given. -/
theorem harvest_error {nodes : List NodeId} (h : Ground target.lenient tree (nodes + held))
    {found : Harvest NodeId} {reason : Breakdown}
    (broken : target.policy.harvest nodes found tree = .error reason) : reason = .unfinished := by
  induction nodes generalizing tree held found with
  | nil => cases broken
  | cons node nodes ih =>
    rw [← Multiset.cons_coe, Multiset.cons_add] at h
    obtain ⟨line, -, he⟩ := expandFrom_of_mem h (Multiset.mem_cons_self node _) target.phaseLimit
    rcases he.answers with ⟨-, _, ha⟩ | ⟨-, expansion, middle, new, ha, hl⟩
    · have hp : target.policy.expand tree node = .error .unfinished := by
        simp only [Target.policy, Target.expand, ha, outcome]
      rw [Policy.harvest, hp] at broken
      cases broken
      rfl
    · have hg := hl.ground
      rw [Multiset.add_cons] at hg
      obtain ⟨after, hr, hg', -⟩ := hg.release
      have hp : target.policy.expand tree node = .ok (expansion, middle) := by
        simp only [Target.policy, Target.expand, ha, outcome]
      have hp' : target.policy.release middle node = .ok after := by
        simp only [Target.policy, hr, outcome, Except.map]
      simp only [Policy.harvest, hp, hp'] at broken
      rw [add_left_comm] at hg'
      exact ih hg' broken

/-- A round breaks down only where a node runs on for longer than it was given. -/
theorem searchRound_answers (h : Holds target searcher.state searcher.frontier goals) :
    searcher.searchRound target.policy = .error .unfinished ∨
      ∃ found searcher', searcher.searchRound target.policy = .ok (found, searcher') ∧
        Holds target searcher'.state searcher'.frontier (found + goals) := by
  cases hround : searcher.searchRound target.policy with
  | ok result =>
    exact .inr ⟨_, _, rfl, h.searchRound hround⟩
  | error reason =>
    have hbroken : ¬ ∃ result, searcher.searchRound target.policy = .ok result := by
      rw [hround]
      nofun
    rw [searchRound_ok_iff h, ← harvest_ok_iff h.ground .empty] at hbroken
    obtain ⟨width, state, frontier, round, source⟩ := searcher
    cases hharvest : target.policy.harvest frontier .empty state with
    | ok result => exact absurd ⟨result, hharvest⟩ hbroken
    | error cause =>
      rw [Searcher.searchRound, hharvest] at hround
      cases hround
      rw [harvest_error h.ground hharvest]
      exact .inl rfl

/-- Goals in hand can be given back in any order. -/
theorem abandonAll_ok {nodes : List NodeId} {candidates : Multiset NodeId}
    (h : Holds target tree candidates (nodes + goals)) :
    ∃ tree', target.policy.releaseAll nodes tree = .ok tree' ∧ Holds target tree' candidates goals := by
  have hground := h.ground
  rw [add_left_comm] at hground
  obtain ⟨tree', hr⟩ := releaseAll_ok hground
  exact ⟨tree', hr, (target_kept target).abandonAll h hr⟩

/-- A run breaks down only where a node runs on for longer than it was given. At its
end it has its frontier in hand, and the goal that it has found. The observer was
shown searches only that had their frontier in hand and no new goal. -/
theorem run_answers (observer : ω → Searcher StateTree NodeId G → ω × Bool) (limit : Nat)
    {notes : ω} {P : ω → Prop}
    (hP : ∀ notes (seen : Searcher StateTree NodeId G), P notes →
      Holds target seen.state seen.frontier goals → P (observer notes seen).1)
    (hn : P notes) (h : Holds target searcher.state searcher.frontier goals) :
    searcher.run target.policy observer limit notes = .error .unfinished ∨
      ∃ ending notes' searcher',
        searcher.run target.policy observer limit notes = .ok (ending, notes', searcher') ∧
        P notes' ∧ Holds target searcher'.state searcher'.frontier (goalOf ending + goals) ∧
        (ending = .exhausted → searcher'.frontier = []) := by
  induction limit generalizing notes searcher with
  | zero => exact .inr ⟨_, _, _, rfl, hn, by rwa [goalOf, zero_add], fun h => by cases h⟩
  | succ limit ih =>
    rw [Searcher.run]
    by_cases hempty : searcher.frontier.isEmpty = true
    · rw [if_pos hempty]
      refine .inr ⟨_, _, _, rfl, hn, ?_, fun _ => List.isEmpty_iff.mp hempty⟩
      rwa [goalOf, zero_add]
    · rw [if_neg hempty]
      have hseen := hP notes searcher hn h
      cases hwatch : observer notes searcher with
      | mk seen onward =>
        rw [hwatch] at hseen
        cases onward with
        | false => exact .inr ⟨_, _, _, rfl, hseen, by rwa [goalOf, zero_add], fun h => by cases h⟩
        | true =>
          dsimp only
          rcases searchRound_answers h with hround | ⟨found, searcher', hround, hafter⟩
          · rw [hround]
            exact .inl rfl
          · rw [hround]
            cases found with
            | nil =>
              rw [Multiset.coe_nil, zero_add] at hafter
              exact ih hseen hafter
            | cons goal others =>
              rw [← Multiset.cons_coe, Multiset.cons_add, ← Multiset.add_cons] at hafter
              obtain ⟨tree', hr, hend⟩ := abandonAll_ok hafter
              dsimp only
              rw [hr]
              refine .inr ⟨_, _, _, rfl, hseen, ?_, fun h => by cases h⟩
              rwa [goalOf, Multiset.singleton_add]

/-- What a run that may break down leaves behind, whatever its observer does. -/
theorem run_ends (observer : ω → Searcher StateTree NodeId G → ω × Bool) (limit : Nat) (notes : ω)
    (h : Holds target searcher.state searcher.frontier goals) :
    searcher.run target.policy observer limit notes = .error .unfinished ∨
      ∃ ending notes' searcher',
        searcher.run target.policy observer limit notes = .ok (ending, notes', searcher') ∧
        Holds target searcher'.state searcher'.frontier (goalOf ending + goals) ∧
        (ending = .exhausted → searcher'.frontier = []) := by
  rcases run_answers observer limit (P := fun _ => True) (fun _ _ _ _ => trivial)
    (trivial : (fun _ => True) notes) h with hrun | ⟨ending, notes', searcher', hrun, -, hend⟩
  · exact .inl hrun
  · exact .inr ⟨ending, notes', searcher', hrun, hend⟩

/-- The searches for a target that come about from a root by any rounds and runs, and
the goals that they have handed out and that were not given back. Every round and
every run may have its own bound on the phases of an expansion. -/
inductive Course (target : Target) : Searcher StateTree NodeId G → Multiset NodeId → Prop where
  /-- A search begins with a root. -/
  | start {width : Nat} {top : NodeId} {tree : StateTree} {source : G}
      {searcher : Searcher StateTree NodeId G} (made : root StateTree.empty = .ok top tree)
      (begins : Searcher.ofRoot width tree top source = .ok searcher) : Course target searcher 0
  /-- A round hands out all its goals. -/
  | round {searcher searcher' : Searcher StateTree NodeId G} {goals : Multiset NodeId}
      {found : List NodeId} (before : Course target searcher goals) (phases : Nat)
      (ran : searcher.searchRound (within target phases).policy = .ok (found, searcher')) :
      Course target searcher' (found + goals)
  /-- A run hands out the goal that it ends with. A run that has come to its limit of
  rounds is one that is under way, between two rounds. -/
  | run {searcher searcher' : Searcher StateTree NodeId G} {goals : Multiset NodeId}
      {ω : Type} {notes notes' : ω} {ending : RunEnd NodeId} (before : Course target searcher goals)
      (phases limit : Nat) (observer : ω → Searcher StateTree NodeId G → ω × Bool)
      (ran : searcher.run (within target phases).policy observer limit notes =
        .ok (ending, notes', searcher')) :
      Course target searcher' (goalOf ending + goals)
  /-- A goal that was handed out is given back. -/
  | release {searcher : Searcher StateTree NodeId G} {goals : Multiset NodeId} {goal : NodeId}
      {tree : StateTree} (before : Course target searcher (goal ::ₘ goals))
      (released : release goal searcher.state = .ok () tree) :
      Course target { searcher with state := tree } goals

/-- With room for a node a search begins with the root alone. -/
theorem course_of_room {width : Nat} (room : 1 ≤ width) (source : G) :
    Course target ⟨width, ⟨#[⟨.root, 1⟩], [], 1⟩, [0], 1, source⟩ 0 :=
  .start rfl (if_neg (Nat.one_le_iff_ne_zero.mp room))

/-- A search has its frontier in hand, and its goals as long as they were not given
back. -/
theorem Course.holds (h : Course target searcher goals) :
    Holds target searcher.state searcher.frontier goals := by
  induction h with
  | start made begins => exact (holds_ofRoot target made begins).1
  | round before phases ran ih =>
    rcases searchRound_answers ((holds_within phases).mpr ih) with hround | ⟨_, _, hround, hafter⟩
    · cases ran.symm.trans hround
    · cases ran.symm.trans hround
      exact (holds_within phases).mp hafter
  | run before phases limit observer ran ih =>
    rcases run_ends observer limit _ ((holds_within phases).mpr ih) with
      hrun | ⟨_, _, _, hrun, hafter, -⟩
    · cases ran.symm.trans hrun
    · cases ran.symm.trans hrun
      exact (holds_within phases).mp hafter
  | release before released ih =>
    refine (target_kept target).abandon ih ?_
    simp only [Target.policy, released, outcome, Except.map]

/-- A search and the goals that it has handed out account for all handles, and go on
to do so. -/
structure Balanced (target : Target) (searcher : Searcher StateTree NodeId G)
    (goals : Multiset NodeId) : Prop where
  /-- The handles in use are the nodes of the frontier and the goals. -/
  accounted : Accounted searcher.state (searcher.frontier + goals)
  /-- A round in which every expansion returns does so itself. -/
  round_ok : ∀ phases, (∀ id ∈ searcher.frontier, ∃ expansion tree,
      (within target phases).expand id searcher.state = .ok expansion tree) →
    ∃ result, searcher.searchRound (within target phases).policy = .ok result
  /-- A round that breaks down has a node that runs on for longer than it was given. -/
  round_error : ∀ phases reason,
    searcher.searchRound (within target phases).policy = .error reason → reason = .unfinished
  /-- So has a run. -/
  run_error : ∀ {ω : Type} (observer : ω → Searcher StateTree NodeId G → ω × Bool)
    (phases limit : Nat) (notes : ω) (reason : Breakdown),
    searcher.run (within target phases).policy observer limit notes = .error reason →
      reason = .unfinished
  /-- Before each of its rounds a run is accounted for: what its observer concludes
  from searches that are accounted for is right at the end. -/
  watched : ∀ {ω : Type} (observer : ω → Searcher StateTree NodeId G → ω × Bool) (P : ω → Prop),
    (∀ notes (seen : Searcher StateTree NodeId G), P notes →
      Accounted seen.state (seen.frontier + goals) → P (observer notes seen).1) →
    ∀ phases limit notes ending notes' searcher', P notes →
      searcher.run (within target phases).policy observer limit notes =
        .ok (ending, notes', searcher') → P notes'
  /-- A goal can be given back. -/
  goal_released : ∀ goal ∈ goals, ∃ tree, release goal searcher.state = .ok () tree
  /-- Where the frontier has died out and no goal is left, no node is live. -/
  emptied : ∀ {ω : Type} (observer : ω → Searcher StateTree NodeId G → ω × Bool)
    (phases limit : Nat) (notes notes' : ω) (searcher' : Searcher StateTree NodeId G),
    searcher.run (within target phases).policy observer limit notes =
      .ok (.exhausted, notes', searcher') → goals = 0 → searcher'.state.live = 0

/-- A search that has its frontier and its goals in hand is balanced. -/
theorem balanced_of_holds (h : Holds target searcher.state searcher.frontier goals) :
    Balanced target searcher goals := by
  have hwithin := fun phases => (@holds_within target _ _ _ phases).mpr h
  refine ⟨accounted_of_books h.ground.books, fun phases hall => ?_, fun phases reason hbroken => ?_,
    fun observer phases limit notes reason hbroken => ?_,
    fun observer P hP phases limit notes ending notes' searcher' hn ran => ?_,
    fun goal hm => ?_, fun observer phases limit notes notes' searcher' ran hgoals => ?_⟩
  · rw [searchRound_ok_iff (hwithin phases)]
    intro id hm line hline
    have hheld : id ∈ (searcher.frontier : Multiset NodeId) + goals :=
      Multiset.mem_add.mpr (.inl (Multiset.mem_coe.mpr hm))
    exact (expansion_ends_iff_fate (hwithin phases).ground hheld hline phases).mp (hall id hm)
  · rcases searchRound_answers (hwithin phases) with hround | ⟨_, _, hround, -⟩
    · cases hbroken.symm.trans hround
      rfl
    · cases hbroken.symm.trans hround
  · rcases run_ends observer limit notes (hwithin phases) with hrun | ⟨_, _, _, hrun, -⟩
    · cases hbroken.symm.trans hrun
      rfl
    · cases hbroken.symm.trans hrun
  · have hseen : ∀ notes (seen : Searcher StateTree NodeId G), P notes →
        Holds (within target phases) seen.state seen.frontier goals → P (observer notes seen).1 :=
      fun notes seen hn hs => hP notes seen hn (accounted_of_books hs.ground.books)
    rcases run_answers observer limit hseen hn (hwithin phases) with hrun | ⟨_, _, _, hrun, hend, -⟩
    · cases ran.symm.trans hrun
    · cases ran.symm.trans hrun
      exact hend
  · have hground := h.ground
    rw [← Multiset.cons_erase hm, Multiset.add_cons] at hground
    obtain ⟨tree, hr, -⟩ := hground.release
    exact ⟨tree, hr⟩
  · rcases run_ends observer limit notes (hwithin phases) with
      hrun | ⟨_, _, _, hrun, hend, hempty⟩
    · cases ran.symm.trans hrun
    · cases ran.symm.trans hrun
      have hbooks := hend.ground.books
      rw [hempty rfl, hgoals] at hbooks
      exact live_eq_zero hbooks

section Sessions

variable {config : SearchConfig} {source : G} {session : Session G}

/-- A session breaks down only where a node runs on for longer than it was given. At
its end it has its frontier in hand and nothing else. -/
theorem runWithin_answers (phases rounds : Nat)
    (h : Holds (session.config.search phases) session.searcher.state session.searcher.frontier 0) :
    session.runWithin phases rounds = .error (.breakdown .unfinished) ∨
      ∃ ending session', session.runWithin phases rounds = .ok (ending, session') ∧
        Holds (session.config.search phases) session'.searcher.state session'.searcher.frontier 0 ∧
        ∀ count, ending = some (.exhausted count) → session'.searcher.frontier = [] := by
  obtain ⟨config, searcher, notes⟩ := session
  rw [Session.runWithin]
  rcases run_ends (watch config.roundLimit) rounds notes h with
    hrun | ⟨ending, notes', ⟨width, tree, frontier, round, source⟩, hrun, hend, hempty⟩
  · dsimp only
    rw [hrun]
    exact .inl rfl
  · dsimp only
    rw [hrun]
    cases ending with
    | unfinished => exact .inr ⟨_, _, rfl, hend, fun _ h => by cases h⟩
    | exhausted => exact .inr ⟨_, _, rfl, hend, fun _ _ => hempty rfl⟩
    | stopped => exact .inr ⟨_, _, rfl, hend, fun _ h => by cases h⟩
    | found goal =>
      have hground := hend.ground
      rw [goalOf, add_zero, add_comm, Multiset.singleton_add] at hground
      obtain ⟨node, line, hline⟩ := hground.books.line_of_mem (Multiset.mem_cons_self goal _)
      have hnode : tree.node? goal = .ok node := hline.node?_of_mem List.mem_cons_self
      have hsolution : ∃ solution, solutionOf tree goal (round - 1) = .ok solution := by
        rw [solutionOf, hnode, hline.decisions_eq]
        exact ⟨_, rfl⟩
      obtain ⟨solution, hsolution⟩ := hsolution
      obtain ⟨after, hr, hafter, -⟩ := hground.release
      simp only [hsolution, hr, outcome]
      refine .inr ⟨_, _, rfl, ⟨?_, fun _ hm => absurd hm (Multiset.notMem_zero _)⟩,
        fun _ h => by cases h⟩
      rwa [add_zero]

/-- With room for a node a synthesis begins with the root of a search. -/
theorem start_of_room (room : 1 ≤ config.width) (source : G) :
    ∃ session : Session G, Session.start config source = .ok session ∧ session.config = config ∧
      session.searcher.round = 1 ∧ Course (config.search 0) session.searcher 0 := by
  let begun : Searcher StateTree NodeId G :=
    ⟨config.width, ⟨#[⟨.root, 1⟩], [], 1⟩, [0], 1, source⟩
  have begins : Searcher.ofRoot config.width ⟨#[⟨.root, 1⟩], [], 1⟩ 0 source = .ok begun :=
    if_neg (Nat.one_le_iff_ne_zero.mp room)
  have made : root ⟨#[], [], 0⟩ = .ok 0 ⟨#[⟨.root, 1⟩], [], 1⟩ := rfl
  exact ⟨⟨config, begun, #[openingNote config]⟩, by simp only [Session.start, made, begins], rfl,
    rfl, course_of_room room source⟩

/-- A synthesis with room for a node breaks down only where a node or the search runs
on for longer than it was given. At its end it has its last frontier in hand and
nothing else. -/
theorem synthesizeWithin_answers (phases rounds : Nat) (room : 1 ≤ config.width) :
    synthesizeWithin phases rounds config source = .error (.breakdown .unfinished) ∨
      synthesizeWithin phases rounds config source = .error .unfinished ∨
      ∃ ending session', synthesizeWithin phases rounds config source = .ok (ending, session') ∧
        Books session'.searcher.state session'.searcher.frontier ∧
        ∀ count, ending = .exhausted count → session'.searcher.frontier = [] := by
  obtain ⟨begun, hstart, rfl, -, hcourse⟩ := start_of_room room source
  have hbegun : Holds (begun.config.search phases) _ _ _ := (holds_within phases).mpr hcourse.holds
  rw [synthesizeWithin, hstart]
  dsimp only
  rcases runWithin_answers phases rounds hbegun with hrun | ⟨ending, session', hrun, hend, hempty⟩
  · rw [hrun]
    exact .inl rfl
  · rw [hrun]
    have hbooks := hend.ground.books
    rw [add_zero] at hbooks
    cases ending with
    | none => exact .inr (.inl rfl)
    | some ending =>
      exact .inr (.inr ⟨ending, session', rfl, hbooks, fun count hc => hempty count (hc ▸ rfl)⟩)

end Sessions

/-- A search for a target holds no node for nothing. Whatever rounds and runs are
asked of it, it is balanced; and when a synthesis has ended, and has given back the
goal of its program, the nodes of its last frontier are all that is held. -/
theorem search_balanced {G : Type} [RandomSource G] :
    (∀ (target : Target) (searcher : Searcher StateTree NodeId G) (goals : Multiset NodeId),
      Course target searcher goals → Balanced target searcher goals) ∧
    ∀ (config : SearchConfig) (source : G) (phases rounds : Nat), 1 ≤ config.width →
      synthesizeWithin phases rounds config source = .error (.breakdown .unfinished) ∨
      synthesizeWithin phases rounds config source = .error .unfinished ∨
      ∃ ending session, synthesizeWithin phases rounds config source = .ok (ending, session) ∧
        Accounted session.searcher.state session.searcher.frontier ∧
        ∀ count, ending = .exhausted count → session.searcher.state.live = 0 := by
  refine ⟨fun target searcher goals h => balanced_of_holds h.holds,
    fun config source phases rounds room => ?_⟩
  rcases @synthesizeWithin_answers G _ config source phases rounds room with h | h | ⟨ending, session, h, hbooks, hempty⟩
  · exact .inl h
  · exact .inr (.inl h)
  · refine .inr (.inr ⟨ending, session, h, accounted_of_books hbooks, fun count hc => ?_⟩)
    rw [hempty count hc] at hbooks
    exact live_eq_zero hbooks

/-- A search for "Hi" is balanced after its first round. A synthesis for no output at
all, whose one node a round is the one that exits, gives the goal back and leaves
nothing behind. -/
theorem search_balanced_of_exit :
    (∃ (searcher searcher' : Searcher StateTree NodeId Generator) (found : List NodeId),
      searcher.searchRound (within ⟨[72, 105], true, 0⟩ 1).policy = .ok (found, searcher') ∧
        Course ⟨[72, 105], true, 0⟩ searcher' (found + 0) ∧
        Balanced ⟨[72, 105], true, 0⟩ searcher' (found + 0)) ∧
    1 ≤ (⟨"", 1, none, none, false⟩ : SearchConfig).width ∧
    ∃ session, synthesizeWithin 1 2 ⟨"", 1, none, none, false⟩ (Generator.ofNumbers
        [3758096384, 0, 3579139414, 3435973837, 3221225472, 2863311531, 2147483648]) =
          .ok (.found ⟨⟨[81]⟩, [], -1, 2⟩, session) ∧
      Accounted session.searcher.state 0 := by
  constructor
  · obtain ⟨id, tree, hr, hg, hline⟩ := root_ground true
    have hbegins : Searcher.ofRoot 1 tree id (Generator.ofNumbers []) =
        .ok ⟨1, tree, [id], 1, Generator.ofNumbers []⟩ := rfl
    have hstart : Course ⟨[72, 105], true, 0⟩ _ 0 := .start hr hbegins
    have hends : ∀ top ∈ [id], ∀ line, Line tree top line →
        fate (within ⟨[72, 105], true, 0⟩ 1) 1 (machineOf (nodesOf line)) ≠ none := by
      intro top hm line hl
      rw [List.mem_singleton] at hm
      subst hm
      rw [hl.unique hline]
      nofun
    obtain ⟨⟨found, searcher'⟩, hround⟩ :=
      (searchRound_ok_iff ((holds_within 1).mpr hstart.holds)).mpr hends
    have hcourse := hstart.round 1 hround
    exact ⟨_, searcher', found, hround, hcourse, search_balanced.1 _ _ _ hcourse⟩
  · let config : SearchConfig := ⟨"", 1, none, none, false⟩
    let source := Generator.ofNumbers
      [3758096384, 0, 3579139414, 3435973837, 3221225472, 2863311531, 2147483648]
    have hroom : 1 ≤ config.width := by decide
    have hanswer : (synthesizeWithin 1 2 config source).toOption.map
        (fun answer => (answer.1, answer.2.searcher.frontier)) =
          some (.found ⟨⟨[81]⟩, [], -1, 2⟩, []) := by cbv
    rcases search_balanced.2 config source 1 2 hroom with h | h | ⟨ending, session, h, hend, -⟩
    · rw [h] at hanswer
      cases hanswer
    · rw [h] at hanswer
      cases hanswer
    · rw [h] at hanswer
      simp only [Except.toOption, Option.map_some, Option.some.injEq, Prod.mk.injEq] at hanswer
      obtain ⟨rfl, hfrontier⟩ := hanswer
      rw [hfrontier] at hend
      exact ⟨hroom, session, h, hend⟩

end TernarySynth.Proofs.SearchBalance
