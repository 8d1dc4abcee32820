import TernarySynth.Proofs.Generations
import TernarySynth.Proofs.FoundText
import TernarySynth.Proofs.RankOrder
import TernarySynth.Proofs.SearchWork
import TernarySynth.Proofs.PhaseBounds

/-!
# Rounds count decisions

Before a round every node of the frontier has decided one cell less than the number of
the round, each cell once. So all children of a round have the same depth, and the
round ranks them by their output alone; the rank of a goal can be told from the round
that found it; and since there are only so many cells to decide, a search comes to its
end by itself.
-/

namespace TernarySynth.Proofs.RoundDepth

open TritWord RandomSource StateTree BeamSearch TargetSearch Synthesis
open WordRange Lookahead NodeExpansion RoundLedger TargetLedger ExpansionEnd FoundText SearchBalance
open Generations RankOrder SearchWork PhaseBounds

variable {target : Target} {tree tree' : StateTree} {held goals : Multiset NodeId}
variable {id : NodeId} {ids : List NodeId} {level : Nat}

section Levels

/-- What a live node has decided: so many cells, each once and each a cell of the
memory. Its depth counts them. -/
structure HasDecided (tree : StateTree) (id : NodeId) (count : Nat) (node : Node)
    (decisions : List (Word × Word)) : Prop where
  /-- The node is live. -/
  node_eq : tree.node? id = .ok node
  /-- These are its decisions. -/
  decisions_eq : tree.decisions id = .ok decisions
  /-- There are so many of them. -/
  length_eq : decisions.length = count
  /-- Its depth is their number. -/
  depth_eq : node.depth = count
  /-- No cell is decided twice. -/
  nodup : (decisions.map Prod.fst).Nodup
  /-- Every cell is one of the memory. -/
  inMemory : ∀ a v, (a, v) ∈ decisions → a < wordSize

/-- The members of a generation have decided as many cells as its level says. -/
theorem hasDecided_of_generation (h : Generation tree ids level)
    (hground : Ground target.lenient tree held) (hm : id ∈ ids) :
    ∃ node decisions, HasDecided tree id level node decisions := by
  obtain ⟨_, ⟨line, hline, rfl⟩, hlevel⟩ := h.level id hm
  obtain ⟨node, rest, rfl, hnode⟩ := hline.eq_cons
  have hexp := hground.explored hline
  have hperm := decisionsOf_perm hexp
  refine ⟨node, _, hnode, hline.decisions_eq, ?_, ?_, ?_, fun a v hv => ?_⟩
  · rw [hperm.length_eq, hlevel]
  · rw [← hlevel]
    exact hexp.depth_eq
  · exact (hperm.map Prod.fst).nodup_iff.mpr hexp.nodup
  · exact (hexp.encoded (hperm.mem_iff.mp hv)).1

/-- So their rank is told by their output and the level. -/
theorem score_of_depth {node : Node} (hn : tree.node? id = .ok node) (hd : node.depth = level) :
    score tree id = .ok (outputWeight * node.output.length - level) := by
  rw [score, hn]
  dsimp only
  rw [rank, hd]

/-- An output that is the target has its length. -/
theorem length_of_isMet {output : List UInt8} (h : target.isMet output = true) :
    output.length = target.bytes.length := by
  have hmap : output.map foldCase = target.bytes.map foldCase := beq_iff_eq.mp h
  have hlength := congrArg List.length hmap
  rwa [List.length_map, List.length_map] at hlength

/-- The rank of a goal is told by the target and its level. -/
theorem score_of_isGoal (h : Generation tree ids level) (hground : Ground target.lenient tree held)
    (hm : id ∈ ids) (hgoal : IsGoal target tree id) :
    score tree id = .ok (outputWeight * target.bytes.length - level) := by
  obtain ⟨node, decisions, hd⟩ := hasDecided_of_generation h hground hm
  obtain ⟨line, hline, -, hmet⟩ := hgoal
  obtain ⟨found, rest, rfl, hfound⟩ := hline.eq_cons
  cases hd.node_eq.symm.trans hfound
  rw [score_of_depth hd.node_eq hd.depth_eq, ← length_of_isMet hmet]
  rfl

/-- A generation that has members has not decided more cells than there are. -/
theorem level_le_of_generation (h : Generation tree ids level)
    (hground : Ground target.lenient tree held) (hne : ids ≠ []) : level ≤ wordSize := by
  obtain ⟨id, hm⟩ := List.exists_mem_of_ne_nil ids hne
  obtain ⟨_, ⟨line, hline, rfl⟩, hlevel⟩ := h.level id hm
  rw [← hlevel]
  exact decided_length_le (hground.explored hline)

end Levels

section Ranking

variable {G : Type} [RandomSource G] {searcher : Searcher StateTree NodeId G} {phases : Nat}

/-- The rank of a node where only its output counts. -/
def outputLength (tree : StateTree) (id : NodeId) : Except Breakdown Int :=
  (tree.node? id).map fun node => (node.output.length : Int)

omit [RandomSource G] in
/-- The children that a round brings up have all decided one cell more. -/
theorem candidate_of_sown (h : Sown target searcher goals) {found : Harvest NodeId}
    (ok : (within target phases).policy.harvest searcher.frontier .empty searcher.state =
      .ok (found, tree)) (hm : id ∈ found.pool.toList) :
    ∃ node decisions, HasDecided tree id searcher.round node decisions := by
  have hwithin : Holds (within target phases) _ _ _ := (holds_within phases).mpr h.holds
  obtain ⟨level, hlevel, hgen⟩ := h.generation
  have hkids := (hgen.harvest hwithin.ground ok).1
  rw [← add_zero (searcher.frontier : Multiset NodeId)] at hwithin
  have hafter := ((target_kept (within target phases)).harvest_empty hwithin ok).ground
  rw [hlevel]
  exact hasDecided_of_generation hkids hafter hm

/-- So a round ranks them by their output alone: it is the same round if decisions do
not count. -/
theorem ranking_of_sown (h : Sown target searcher goals) :
    searcher.searchRound (scoredBy (within target phases).policy outputLength) =
      searcher.searchRound (within target phases).policy := by
  have hmono : StrictMono fun points : Int => outputWeight * points - searcher.round := by
    intro one two hlt
    dsimp only [outputWeight]
    omega
  refine searchRound_scoredBy hmono fun found tree ok id hm => ?_
  obtain ⟨node, decisions, hd⟩ := candidate_of_sown h ok hm
  change score tree id = _
  rw [score_of_depth hd.node_eq hd.depth_eq, outputLength, hd.node_eq]
  rfl

end Ranking

section Ending

variable {G ω : Type} [RandomSource G] {searcher searcher' : Searcher StateTree NodeId G}
variable {phases : Nat}

omit [RandomSource G] in
/-- While there is a frontier, there have not been more rounds than there are cells. -/
theorem round_le_of_busy (h : Sown target searcher goals) (busy : searcher.frontier ≠ []) :
    searcher.round ≤ wordSize + 1 := by
  obtain ⟨level, hlevel, hgen⟩ := h.generation
  have hle := level_le_of_generation hgen h.holds.ground busy
  omega

/-- So quiet rounds come to an end. -/
theorem quiet_round_le {n : Nat} (h : Sown target searcher goals)
    (hq : Quiet (within target phases).policy n searcher searcher') :
    searcher'.round ≤ max searcher.round (wordSize + 2) := by
  induction hq with
  | none => exact Nat.le_max_left _ _
  | more busy ran rest ih =>
    have hnext := (h.searchRound ran).1
    rw [Multiset.coe_nil, zero_add] at hnext
    have hle := ih hnext
    have hround := round_le_of_busy h busy
    rw [round_succ ran] at hle
    omega

/-- A run that is not stopped ends by itself: with a goal, or when its frontier has died
out. -/
theorem run_ends_itself (h : Sown target searcher goals)
    {observer : ω → Searcher StateTree NodeId G → ω × Bool} {limit : Nat} {notes notes' : ω}
    {ending : RunEnd NodeId} (goesOn : ∀ notes seen, (observer notes seen).2 = true)
    (enough : wordSize + 2 ≤ limit)
    (ok : searcher.run (within target phases).policy observer limit notes =
      .ok (ending, notes', searcher')) :
    (ending = .exhausted ∨ ∃ goal, ending = .found goal) ∧
      searcher'.round ≤ max searcher.round (wordSize + 2) := by
  obtain ⟨⟨n, middle, hquiet, hends⟩, hstops⟩ := run_parts ok
  have hle := quiet_round_le h hquiet
  cases ending with
  | exhausted =>
    rw [hends.1]
    exact ⟨.inl rfl, hle⟩
  | stopped =>
    obtain ⟨notes, seen, hfalse⟩ := hstops rfl
    rw [goesOn] at hfalse
    cases hfalse
  | unfinished =>
    obtain ⟨level, hlevel, -⟩ := h.generation
    have hcount := hquiet.round_eq
    have hn : n = limit := hends.2
    omega
  | found goal =>
    obtain ⟨-, busy, others, last, hround, -, -, hlast⟩ := hends
    have hmiddle := round_le_of_busy (h.quiet hquiet) busy
    refine ⟨.inr ⟨goal, rfl⟩, ?_⟩
    rw [hlast, round_succ hround]
    omega

/-- One round of a search that finds nothing, on a frontier that has not died out. -/
def Advances (target : Target) (searcher searcher' : Searcher StateTree NodeId G) : Prop :=
  searcher.frontier ≠ [] ∧
    ∃ phases, searcher.searchRound (within target phases).policy = .ok ([], searcher')

/-- Every expansion returns, in the next round and in those after it. -/
def Productive (target : Target) (searcher : Searcher StateTree NodeId G) : Prop :=
  ∀ later, Relation.ReflTransGen (Advances target) searcher later → Returns target later

/-- A run that has no frontier returns. -/
theorem run_of_empty {policy : Policy StateTree Breakdown NodeId} (hempty : searcher.frontier = [])
    (observer : ω → Searcher StateTree NodeId G → ω × Bool) (limit : Nat) (notes : ω) :
    ∃ result, searcher.run policy observer limit notes = .ok result := by
  cases limit with
  | zero => exact ⟨_, rfl⟩
  | succ limit => exact ⟨_, run_iff.mpr (.exhausted hempty)⟩

/-- A run returns after a round if what it does then returns: it goes on where no goal
was found, and gives back all goals but the first otherwise. -/
theorem run_of_round {policy : Policy StateTree Breakdown NodeId} {found : List NodeId}
    {middle : Searcher StateTree NodeId G} (busy : searcher.frontier ≠ [])
    (ran : searcher.searchRound policy = .ok (found, middle))
    (observer : ω → Searcher StateTree NodeId G → ω × Bool)
    (hrest : found = [] → ∀ limit notes, ∃ result,
      middle.run policy observer limit notes = .ok result)
    (hrelease : ∀ goal others, found = goal :: others → ∃ tree,
      policy.releaseAll others middle.state = .ok tree) (limit : Nat) (notes : ω) :
    ∃ result, searcher.run policy observer limit notes = .ok result := by
  cases limit with
  | zero => exact ⟨_, rfl⟩
  | succ limit =>
    rcases hwatch : observer notes searcher with ⟨seen, onward⟩
    cases onward with
    | false => exact ⟨_, run_iff.mpr (.stopped busy hwatch)⟩
    | true =>
      cases found with
      | nil =>
        obtain ⟨⟨ending, notes', last⟩, hrun⟩ := hrest rfl limit seen
        exact ⟨_, run_iff.mpr (.quiet busy hwatch ran (run_iff.mp hrun))⟩
      | cons goal others =>
        obtain ⟨tree, hr⟩ := hrelease goal others rfl
        exact ⟨_, run_iff.mpr (.found busy hwatch ran hr)⟩

/-- A run that its observer stops returns. -/
theorem run_of_stop {policy : Policy StateTree Breakdown NodeId}
    {observer : ω → Searcher StateTree NodeId G → ω × Bool} {notes : ω}
    (hstop : (observer notes searcher).2 = false) (limit : Nat) :
    ∃ result, searcher.run policy observer limit notes = .ok result := by
  cases limit with
  | zero => exact ⟨_, rfl⟩
  | succ limit =>
    by_cases hempty : searcher.frontier = []
    · exact run_of_empty hempty observer _ notes
    · exact ⟨_, run_iff.mpr (.stopped hempty (Prod.ext rfl hstop))⟩

/-- Where an observer stops all searches but some, and every expansion of a round returns
that begins with one of these, a run returns once its expansions may take enough phases.
The requests to the source are answered, as they are by every `RandomSource`. The induction
is on the rounds that are left until all cells are decided. -/
theorem run_returns_while (goesOn : Searcher StateTree NodeId G → Prop)
    (h : Sown target searcher goals)
    (productive : ∀ later, Relation.ReflTransGen (Advances target) searcher later →
      goesOn later → Returns target later) :
    ∃ enough, ∀ phases, enough ≤ phases →
      ∀ {ω : Type} (observer : ω → Searcher StateTree NodeId G → ω × Bool),
        (∀ notes seen, ¬ goesOn seen → (observer notes seen).2 = false) →
        ∀ (limit : Nat) (notes : ω), ∃ result,
          searcher.run (within target phases).policy observer limit notes = .ok result := by
  obtain ⟨left, hleft⟩ : ∃ left, wordSize + 2 ≤ searcher.round + left := ⟨wordSize + 2, by omega⟩
  induction left generalizing searcher goals with
  | zero =>
    refine ⟨0, fun phases _ ω observer _ limit notes => run_of_empty ?_ observer limit notes⟩
    by_contra busy
    have hround := round_le_of_busy h busy
    omega
  | succ left ih =>
    by_cases busy : searcher.frontier = []
    · exact ⟨0, fun phases _ ω observer _ limit notes => run_of_empty busy observer limit notes⟩
    by_cases onward : goesOn searcher
    · obtain ⟨bound, ⟨found, middle⟩, hround⟩ :=
        (returns_iff h.holds).mp (productive searcher .refl onward)
      have hmiddle := (h.searchRound hround).1
      have hrest : ∃ enough, found = [] → ∀ phases, enough ≤ phases →
          ∀ {ω : Type} (observer : ω → Searcher StateTree NodeId G → ω × Bool),
            (∀ notes seen, ¬ goesOn seen → (observer notes seen).2 = false) →
            ∀ (limit : Nat) (notes : ω), ∃ result,
              middle.run (within target phases).policy observer limit notes = .ok result := by
        by_cases hnone : found = []
        · rw [hnone] at hround
          have hcount := round_succ hround
          obtain ⟨enough, hall⟩ := ih hmiddle (fun later hreach =>
            productive later (.head ⟨busy, bound, hround⟩ hreach)) (by omega)
          exact ⟨enough, fun _ => hall⟩
        · exact ⟨0, fun hfound => absurd hfound hnone⟩
      obtain ⟨enough, hrest⟩ := hrest
      refine ⟨max bound enough, fun phases hle ω observer hstops limit notes => ?_⟩
      have hround' := searchRound_mono ((Nat.le_max_left _ _).trans hle) hround
      refine run_of_round busy hround' observer (fun hnone limit notes => ?_)
        (fun goal others hfound => ?_) limit notes
      · exact hrest hnone phases ((Nat.le_max_right _ _).trans hle) observer hstops limit notes
      · have hholds : Holds (within target phases) _ _ _ := (holds_within phases).mpr hmiddle.holds
        rw [hfound, ← Multiset.cons_coe, Multiset.cons_add, ← Multiset.add_cons] at hholds
        obtain ⟨tree, hr, -⟩ := abandonAll_ok hholds
        exact ⟨tree, hr⟩
    · exact ⟨0, fun phases _ ω observer hstops limit notes =>
        run_of_stop (hstops notes searcher onward) limit⟩

/-- So a run returns, whatever its observer does, where all rounds return. -/
theorem run_returns (h : Sown target searcher goals) (productive : Productive target searcher) :
    ∃ enough, ∀ phases, enough ≤ phases →
      ∀ {ω : Type} (observer : ω → Searcher StateTree NodeId G → ω × Bool) (limit : Nat)
        (notes : ω), ∃ result,
          searcher.run (within target phases).policy observer limit notes = .ok result := by
  obtain ⟨enough, hall⟩ := run_returns_while (fun _ => True) h
    fun later hreach _ => productive later hreach
  exact ⟨enough, fun phases hle ω observer =>
    hall phases hle observer fun _ _ hnot => absurd trivial hnot⟩

end Ending

section Sessions

variable {G : Type} [RandomSource G] {config : SearchConfig} {source : G}
variable {session session' : Session G} {phases rounds : Nat}

/-- What a session answers when its search has ended in this way. -/
def Concludes (searcher : Searcher StateTree NodeId G) : RunEnd NodeId → Option Ending → Prop
  | .unfinished, answer => answer = none
  | .exhausted, answer => answer = some (.exhausted (searcher.round - 1))
  | .stopped, answer => answer = some (.stopped (searcher.round - 1))
  | .found goal, answer => ∃ solution,
    solutionOf searcher.state goal (searcher.round - 1) = .ok solution ∧
      answer = some (.found solution)

/-- A session answers what the end of its search says. -/
theorem runWithin_concludes {answer : Option Ending}
    (ok : session.runWithin phases rounds = .ok (answer, session')) :
    ∃ ending notes searcher,
      session.searcher.run (session.config.search phases).policy
        (watch session.config.roundLimit) rounds session.notes = .ok (ending, notes, searcher) ∧
      Concludes searcher ending answer := by
  obtain ⟨config, searcher, notes⟩ := session
  rw [Session.runWithin] at ok
  split at ok
  next => cases ok
  next ending notes width tree frontier round source hrun =>
    refine ⟨ending, notes, _, hrun, ?_⟩
    cases ending with
    | unfinished =>
      cases ok
      rfl
    | exhausted =>
      cases ok
      rfl
    | stopped =>
      cases ok
      rfl
    | found goal =>
      dsimp only at ok
      split at ok
      next => cases ok
      next solution hsolution =>
        split at ok
        next => cases ok
        next =>
          cases ok
          exact ⟨solution, hsolution, rfl⟩

/-- How a synthesis ends that nobody stops: before there are more rounds than cells, and
with a program whose rank is told by its round, if it ends with one. -/
def EndsInTime (config : SearchConfig) : Ending → Prop
  | .found solution => solution.rounds ≤ wordSize + 1 ∧
    solution.score = outputWeight * config.target.toUTF8.toList.length - (solution.rounds - 1 : Int)
  | .exhausted rounds => rounds ≤ wordSize + 1
  | .stopped _ => False

omit [RandomSource G] in
/-- A goal of a run stands for a solution whose rank is told by its round. -/
theorem score_of_solution {searcher : Searcher StateTree NodeId G} {goal : NodeId}
    {solution : Solution} {level : Nat} {target : Target} {held : Multiset NodeId}
    (hgen : Generation searcher.state [goal] level)
    (hground : Ground target.lenient searcher.state held)
    (hgoal : IsGoal target searcher.state goal)
    (hsolution : solutionOf searcher.state goal (level + 1) = .ok solution) :
    solution.rounds = level + 1 ∧
      solution.score = outputWeight * target.bytes.length - (solution.rounds - 1 : Int) := by
  have hscore := score_of_isGoal hgen hground (List.mem_singleton_self goal) hgoal
  rw [score] at hscore
  rw [solutionOf] at hsolution
  split at hsolution
  next => cases hsolution
  next node hn =>
    rw [hn] at hscore
    split at hsolution
    next => cases hsolution
    next =>
      cases hsolution
      refine ⟨rfl, ?_⟩
      dsimp only at hscore ⊢
      rw [Except.ok.inj hscore]
      omega

/-- A session at its first round that has no limit of its own, and enough rounds to go
through all cells, ends in time if it returns. -/
theorem runWithin_ends {answer : Option Ending} (unlimited : session.config.roundLimit = none)
    (enough : wordSize + 2 ≤ rounds) (first : session.searcher.round = 1)
    (hsown : Sown (session.config.search 0) session.searcher 0)
    (ok : session.runWithin phases rounds = .ok (answer, session')) :
    ∃ ending, answer = some ending ∧ EndsInTime session.config ending := by
  obtain ⟨ending, notes, searcher, hrun, hconcludes⟩ := runWithin_concludes ok
  rw [unlimited] at hrun
  -- All that a search within a bound adds to the target is the bound.
  have hrun' : Searcher.run (within (session.config.search 0) phases).policy _ _ _ _ = _ := hrun
  obtain ⟨hby, hround⟩ := run_ends_itself hsown (fun _ _ => rfl) enough hrun'
  have hrounds : searcher.round - 1 ≤ wordSize + 1 := by omega
  rcases hby with rfl | ⟨goal, rfl⟩
  · exact ⟨_, hconcludes, hrounds⟩
  · obtain ⟨solution, hsolution, hanswer⟩ := hconcludes
    obtain ⟨hend, hgoals⟩ := hsown.run hrun'
    obtain ⟨level, hlevel, hgen⟩ := hgoals goal rfl
    have hgoal := hend.holds.isGoal goal
      (Multiset.mem_add.mpr (.inl (Multiset.mem_singleton_self goal)))
    have hcount : searcher.round - 1 = level + 1 := by omega
    rw [hcount] at hsolution hrounds
    obtain ⟨hsolved, hscore⟩ := score_of_solution hgen hend.holds.ground hgoal hsolution
    exact ⟨_, hanswer, hsolved.le.trans hrounds, hscore⟩

/-- A synthesis that has no limit of its own, and enough rounds to go through all cells,
ends in time unless an expansion runs on for longer than it was given. -/
theorem synthesis_ends (room : 1 ≤ config.width) (unlimited : config.roundLimit = none)
    (enough : wordSize + 2 ≤ rounds) :
    synthesizeWithin phases rounds config source = .error (.breakdown .unfinished) ∨
      ∃ ending session, synthesizeWithin phases rounds config source = .ok (ending, session) ∧
        EndsInTime config ending := by
  obtain ⟨session, hstart, rfl, first, hcourse⟩ := start_of_room room source
  have hsown := sown_of_course hcourse
  rw [synthesizeWithin, hstart]
  dsimp only
  rcases runWithin_answers phases rounds ((holds_within phases).mpr hsown.holds) with
    hrun | ⟨answer, session', hrun, -⟩
  · rw [hrun]
    exact .inl rfl
  · obtain ⟨ending, rfl, hend⟩ := runWithin_ends unlimited enough first hsown hrun
    rw [hrun]
    exact .inr ⟨ending, session', rfl, hend⟩

end Sessions

/-- What holds of a search before every round. -/
structure Graded {G : Type} [RandomSource G] (target : Target)
    (searcher : Searcher StateTree NodeId G) : Prop where
  /-- The nodes of the frontier have decided one cell less than the number of the round. -/
  frontier : ∃ level, searcher.round = level + 1 ∧ ∀ id ∈ searcher.frontier,
    ∃ node decisions, HasDecided searcher.state id level node decisions
  /-- The children that the round brings up have decided one cell more, so as many points
  are taken off the rank of each. -/
  candidates : ∀ (phases : Nat) (found : Harvest NodeId) (tree : StateTree),
    (within target phases).policy.harvest searcher.frontier .empty searcher.state =
      .ok (found, tree) →
    ∀ id ∈ found.pool.toList, ∃ node decisions, HasDecided tree id searcher.round node decisions ∧
      score tree id = .ok (outputWeight * node.output.length - searcher.round)
  /-- The round is the one of a search that ranks nodes by their output alone. -/
  ranking : ∀ phases, searcher.searchRound (scoredBy (within target phases).policy outputLength) =
    searcher.searchRound (within target phases).policy
  /-- The rank of a goal that the round finds is told by the target and the round. -/
  goals : ∀ (phases : Nat) (found : List NodeId) (searcher' : Searcher StateTree NodeId G),
    searcher.searchRound (within target phases).policy = .ok (found, searcher') →
    ∀ goal ∈ found, score searcher'.state goal =
      .ok (outputWeight * target.bytes.length - (searcher.round - 1 : Int))
  /-- There is no frontier any more once there were more rounds than cells. -/
  bounded : searcher.frontier ≠ [] → searcher.round ≤ wordSize + 1
  /-- A run that nobody stops ends with a goal or when the frontier has died out, and has
  not had a frontier in more rounds than that. -/
  run_ends : ∀ {ω : Type} (observer : ω → Searcher StateTree NodeId G → ω × Bool)
    (phases limit : Nat) (notes notes' : ω) (ending : RunEnd NodeId)
    (searcher' : Searcher StateTree NodeId G), (∀ notes seen, (observer notes seen).2 = true) →
    wordSize + 2 ≤ limit →
    searcher.run (within target phases).policy observer limit notes =
      .ok (ending, notes', searcher') →
    (ending = .exhausted ∨ ∃ goal, ending = .found goal) ∧
      searcher'.round ≤ max searcher.round (wordSize + 2)
  /-- Where every expansion returns, so does a run. -/
  run_returns : Productive target searcher → ∃ enough, ∀ phases, enough ≤ phases →
    ∀ {ω : Type} (observer : ω → Searcher StateTree NodeId G → ω × Bool) (limit : Nat) (notes : ω),
      ∃ result, searcher.run (within target phases).policy observer limit notes = .ok result

/-- A search that has sown is graded. -/
theorem graded_of_sown {G : Type} [RandomSource G] {searcher : Searcher StateTree NodeId G}
    (h : Sown target searcher goals) : Graded target searcher := by
  refine ⟨?_, fun phases found tree ok id hm => ?_, fun phases => ranking_of_sown h,
    fun phases found searcher' ok goal hm => ?_, round_le_of_busy h,
    fun observer phases limit notes notes' ending searcher' goesOn enough ok =>
      run_ends_itself h goesOn enough ok, run_returns h⟩
  · obtain ⟨level, hlevel, hgen⟩ := h.generation
    exact ⟨level, hlevel, fun id hm => hasDecided_of_generation hgen h.holds.ground hm⟩
  · obtain ⟨node, decisions, hd⟩ := candidate_of_sown h ok hm
    exact ⟨node, decisions, hd, score_of_depth hd.node_eq hd.depth_eq⟩
  · obtain ⟨hnext, level, hlevel, hgen⟩ := h.searchRound ok
    have hgoal := hnext.holds.isGoal goal (Multiset.mem_add.mpr (.inl (Multiset.mem_coe.mpr hm)))
    rw [score_of_isGoal hgen hnext.holds.ground hm hgoal, hlevel, Nat.cast_add, Nat.cast_one,
      add_sub_cancel_right]

/-- Before its round number `r` every node of a search has decided `r - 1` cells, and from
this follow the ranks, and that the search ends by itself. On no tree that it works on is
a node deeper than there are cells. A synthesis without a limit of its own has ended
after as many rounds as there are cells and one more. -/
theorem rounds_count_decisions :
    (∀ {G : Type} [RandomSource G] (target : Target) (searcher : Searcher StateTree NodeId G)
      (goals : Multiset NodeId), Course target searcher goals →
        Graded target searcher ∧
          Worked target.lenient searcher.state (searcher.frontier + goals)) ∧
    (∀ (target : Target) (tree : StateTree) (held : Multiset NodeId),
      Worked target.lenient tree held →
        (∀ id ∈ held, ∀ phases, Reaches target.lenient (tree, held) held
          (target.expandFrom id phases id tree)) ∧
        ∀ id node, tree.node? id = .ok node → node.depth ≤ wordSize) ∧
    ∀ {G : Type} [RandomSource G] (config : SearchConfig) (source : G) (phases rounds : Nat),
      1 ≤ config.width → config.roundLimit = none → wordSize + 2 ≤ rounds →
        synthesizeWithin phases rounds config source = .error (.breakdown .unfinished) ∨
        ∃ ending session, synthesizeWithin phases rounds config source = .ok (ending, session) ∧
          EndsInTime config ending := by
  refine ⟨fun target searcher goals h => ⟨graded_of_sown (sown_of_course h), worked_of_course h⟩,
    fun target tree held h => ⟨fun id hm phases => h.reaches hm phases, fun id node hn => ?_⟩,
    fun config source phases rounds room unlimited enough =>
      synthesis_ends room unlimited enough⟩
  exact (inBounds_of_ground h.ground hn).depth_le

/-- A search for no output at all, with numbers that keep the one node that exits, is
graded after its first round, and its next round returns and finds a goal. A synthesis
that makes these rounds ends with that goal, in round two and so at a rank of minus one. -/
theorem rounds_count_decisions_of_exit :
    (∃ (searcher : Searcher StateTree NodeId Generator) (id : NodeId) (node : Node),
      Course ⟨[], false, 0⟩ searcher 0 ∧ Graded ⟨[], false, 0⟩ searcher ∧
      Productive ⟨[], false, 0⟩ searcher ∧ searcher.round = 2 ∧ searcher.frontier = [id] ∧
      searcher.state.node? id = .ok node ∧ node.depth ≤ wordSize) ∧
    1 ≤ (⟨"", 1, none, none, false⟩ : SearchConfig).width ∧ wordSize + 2 ≤ 59051 ∧
    ∃ session, synthesizeWithin 1 59051 ⟨"", 1, none, none, false⟩ (Generator.ofNumbers
        [3758096384, 0, 3579139414, 3435973837, 3221225472, 2863311531, 2147483648]) =
          .ok (.found ⟨⟨[81]⟩, [], -1, 2⟩, session) ∧
      EndsInTime ⟨"", 1, none, none, false⟩ (.found ⟨⟨[81]⟩, [], -1, 2⟩) := by
  let source := Generator.ofNumbers
    [3758096384, 0, 3579139414, 3435973837, 3221225472, 2863311531, 2147483648]
  constructor
  · let target : Target := ⟨[], false, 0⟩
    let policy := (within target 1).policy
    let begun : Searcher StateTree NodeId Generator :=
      ⟨1, ⟨#[⟨.root, 1⟩], [], 1⟩, [0], 1, source⟩
    have hstart : Course target begun 0 := course_of_room (by decide) _
    have hrounds : ((begun.searchRound policy).bind fun first =>
        (first.2.searchRound policy).map fun last =>
          (first.1, first.2.frontier, first.2.round, last.1)).toOption =
        some ([], [7], 2, [7]) := by cbv
    obtain ⟨first, last, hfirst, hlast, hanswer⟩ := rounds_of_answer hrounds
    simp only [Prod.mk.injEq] at hanswer
    obtain ⟨hnone, hfrontier, hround, hgoal⟩ := hanswer
    have hcourse := hstart.round 1 hfirst
    rw [hnone, Multiset.coe_nil, zero_add] at hcourse
    obtain ⟨hgraded, hworked⟩ := rounds_count_decisions.1 target first.2 0 hcourse
    have hdeep := (rounds_count_decisions.2.1 target _ _ hworked).2
    obtain ⟨level, -, hall⟩ := hgraded.frontier
    obtain ⟨node, decisions, hd⟩ := hall 7 (by rw [hfrontier]; exact List.mem_singleton_self 7)
    refine ⟨first.2, 7, node, hcourse, hgraded, fun later hreach => ?_, hround, hfrontier,
      hd.node_eq, hdeep 7 node hd.node_eq⟩
    -- The next round finds a goal, so no later one is reached by rounds that find nothing.
    rcases hreach.cases_head with rfl | ⟨next, ⟨-, phases, hnext⟩, -⟩
    · exact (returns_iff hcourse.holds).mpr ⟨1, last, hlast⟩
    · have hnext' := searchRound_mono (Nat.le_max_left phases 1) hnext
      have hlast' := searchRound_mono (Nat.le_max_right phases 1) hlast
      have hsame := Except.ok.inj (hnext'.symm.trans hlast')
      rw [← hsame] at hgoal
      cases hgoal
  · have hroom : 1 ≤ (⟨"", 1, none, none, false⟩ : SearchConfig).width := by decide
    have henough : wordSize + 2 ≤ 59051 := by decide
    have hanswer : (synthesizeWithin 1 59051 ⟨"", 1, none, none, false⟩ source).toOption.map
        (fun answer => answer.1) = some (.found ⟨⟨[81]⟩, [], -1, 2⟩) := by cbv
    rcases rounds_count_decisions.2.2 ⟨"", 1, none, none, false⟩ source 1 59051 hroom rfl henough
      with h | ⟨ending, session, h, hend⟩
    · rw [h] at hanswer
      cases hanswer
    · rw [h] at hanswer
      simp only [Except.toOption, Option.map_some, Option.some.injEq] at hanswer
      subst hanswer
      exact ⟨hroom, henough, session, h, hend⟩

end TernarySynth.Proofs.RoundDepth
