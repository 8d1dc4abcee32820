import TernarySynth.Proofs.GoalProgram
import TernarySynth.Proofs.UndrawnSource

/-!
# Exact search

A search whose rounds have room for all children loses nothing, so it is exact. A program
for the target that reads so many cells is still in the frontier after as many rounds, and
the next round finds it, unless an earlier round has found another; a goal that a round
finds is a program that reads no more cells than there were rounds before it. So the search
finds a program if there is one, in a round that tells how few cells such a program can
read, and dies out if there is none.
-/

namespace TernarySynth.Proofs.ExactSearch

open TritWord MemoryImage TernarySynth.Cycle ByteStream RandomSource StateTree BeamSearch
open TargetSearch Synthesis LogLine
open TreeLine LineMachine ExploredLine NodeExpansion ImageReplay
open RoundLedger TargetLedger ExpansionEnd SearchBalance Generations RoundYield SolutionKept
open PhaseBounds RoundDepth SettledRun UndrawnSource GoalProgram

section Programs

variable {P S : Type} [Channel P] [ByteSink S] {target : Target} {sink : S}

/-- How many cells the programs for a target read, each the number for one of them. -/
def cellCounts (target : Target) (channel : P) : Set Nat :=
  {count | ∃ source image limit last, Solves target source image channel limit last ∧
    (cellsRead target.lenient image channel).ncard = count}

/-- A goal of so many decisions is a program that reads no more cells. -/
theorem exists_count_le {tree : StateTree} {goal : NodeId} {held : Multiset NodeId} {level : Nat}
    (hground : Ground target.lenient tree held) (hgen : Generation tree [goal] level)
    (hgoal : IsGoal target tree goal) (reader : List ReadEvent) (tireless : Tireless sink) :
    ∃ count ∈ cellCounts target (StreamChannel.mk reader sink), count ≤ level := by
  obtain ⟨line, hline, exits, met⟩ := hgoal
  obtain ⟨_, ⟨line', hline', rfl⟩, hlevel⟩ := hgen.level goal (List.mem_singleton_self goal)
  rw [hline'.unique hline] at hlevel
  have explored := hground.explored hline
  obtain ⟨source, image, limit, last, hsolves, hcells⟩ := solves_of_line explored exits met reader
    tireless
  refine ⟨_, ⟨source, image, limit, last, hsolves, rfl⟩, ?_⟩
  have hfinite : {a | ∃ v, (a, v) ∈ decidedOn (nodesOf line)}.Finite :=
    (Set.finite_lt_nat wordSize).subset fun a ⟨v, hv⟩ => (explored.encoded hv).1
  rw [← hlevel, ← ncard_decided explored]
  exact Set.ncard_le_ncard hcells hfinite

end Programs

section Rounds

variable {G : Type} [RandomSource G] {target : Target} {searcher middle : TargetSearcher G}
variable {output : List UInt8} {image : Image} {cells : Set Word} {phases more n m : Nat}

/-- Quiet rounds that have room keep a search spacious. Where a program can be found they
do not go on beyond the round that finds it. -/
theorem spacious_of_quiet (hle : phases ≤ more)
    (findable : Findable (within target more) output image cells)
    (start : Follows (within target more) output image cells [.root])
    (quiet : Quiet (within target phases).policy n searcher middle)
    (roomy : Roomy target searcher) (spacious : Spacious (within target more) m searcher)
    (early : m ≤ cells.ncard) :
    Spacious (within target more) (m + n) middle ∧ m + n ≤ cells.ncard := by
  induction quiet generalizing m with
  | none => exact ⟨spacious, early⟩
  | @more n searcher next middle busy ran rest ih =>
    have ran' := searchRound_mono hle ran
    have hearlier : m ≠ cells.ncard := by
      rintro rfl
      obtain ⟨goal, hm, -⟩ := found_of_spacious spacious findable start ran'
      exact List.not_mem_nil hm
    have hnext := ih (roomy.advance busy ran) (spacious.round (roomy.hasRoom _) ran') (by omega)
    rwa [Nat.add_right_comm] at hnext

/-- A search advances by the one round that it can make. -/
theorem round_of_advances {found : List NodeId} {next : TargetSearcher G}
    (h : Advances target searcher middle)
    (ran : searcher.searchRound (within target phases).policy = .ok (found, next)) :
    found = [] ∧ middle = next := by
  obtain ⟨-, bound, hround⟩ := h
  have hround' := searchRound_mono (Nat.le_max_left bound phases) hround
  have ran' := searchRound_mono (Nat.le_max_right bound phases) ran
  obtain ⟨hfound, hnext⟩ := Prod.mk.inj (Except.ok.inj (hround'.symm.trans ran'))
  exact ⟨hfound.symm, hnext⟩

variable {config : SearchConfig} {source : G}

/-- Quiet rounds from the opening of a synthesis, which have room, are no more than the
cells that a program for the target reads, and they leave a frontier. -/
theorem quiet_le_count {P : Type} [Channel P] {channel : P} {count : Nat}
    (room : 1 ≤ config.width) (roomy : Roomy (config.search 0) (opening config source))
    (quiet : Quiet (within (config.search 0) phases).policy n (opening config source) middle)
    (hcount : count ∈ cellCounts (config.search 0) channel) :
    n ≤ count ∧ middle.frontier ≠ [] := by
  obtain ⟨text, image, limit, last, hsolves, rfl⟩ := hcount
  -- The phases of an expansion must also suffice for the whole run of the program.
  have hsolves' : Solves (within (config.search 0) (max phases limit)) text image channel limit
      last := ⟨hsolves.printable, hsolves.loads, hsolves.exits, hsolves.inside, hsolves.quiet,
        hsolves.met⟩
  have findable := hsolves'.findable
  have hstart := hsolves'.follows (Nat.le_max_right phases limit)
  have hopening : Spacious (within (config.search 0) (max phases limit)) 0
      (opening config source) := .start rfl (ofRoot_opening room source)
  obtain ⟨hspacious, hle⟩ := spacious_of_quiet (Nat.le_max_left _ _) findable hstart quiet roomy
    hopening (Nat.zero_le _)
  rw [Nat.zero_add] at hspacious hle
  obtain ⟨id, hm, -⟩ := hspacious.follows hle findable hstart
  exact ⟨hle, List.ne_nil_of_mem hm⟩

omit [RandomSource G] in
/-- The root alone brings up eight children, so a search whose rounds have room is at least
as wide. -/
theorem width_of_hasRoom
    (h : ∀ phases, HasRoom (within (config.search 0) phases) (opening config source)) :
    8 ≤ config.width := by
  have hpool : ((within (config.search 0) 1).policy.harvest [0] .empty
      ⟨#[⟨.root, 1⟩], [], 1⟩).toOption.map (fun result => result.1.pool.size) = some 8 := by
    obtain ⟨text, width, seed, roundLimit, lenient⟩ := config
    generalize hbytes : text.toUTF8.toList = bytes
    simp only [SearchConfig.search, hbytes]
    cbv
  rcases hharvest : (within (config.search 0) 1).policy.harvest [0] .empty
      ⟨#[⟨.root, 1⟩], [], 1⟩ with reason | ⟨harvest, tree⟩
  · rw [hharvest] at hpool
    cases hpool
  · rw [hharvest] at hpool
    have hsize : harvest.pool.size = 8 := Option.some.inj hpool
    rw [← hsize]
    exact h 1 harvest tree hharvest

end Rounds

section Endings

/-- An ending that is exact: a program is found if there is one, and its round is behind the
smallest number of cells that a program reads; otherwise the search space is exhausted. -/
structure Exact (counts : Set Nat) (ending : Ending) : Prop where
  /-- Something is found where there is something. -/
  found_iff : (∃ solution, ending = .found solution) ↔ counts.Nonempty
  /-- It is found as early as possible. -/
  rounds_eq : ∀ solution, ending = .found solution →
    ∃ least, IsLeast counts least ∧ solution.rounds = 1 + least
  /-- Where there is nothing the frontier dies out. -/
  otherwise : ¬ counts.Nonempty → ∃ rounds, ending = .exhausted rounds

/-- A solution of the round behind the least number is exact. -/
theorem exact_of_found {counts : Set Nat} {solution : Solution} {least : Nat}
    (h : IsLeast counts least) (hrounds : solution.rounds = 1 + least) :
    Exact counts (.found solution) := by
  refine ⟨⟨fun _ => ⟨least, h.1⟩, fun _ => ⟨solution, rfl⟩⟩, fun other hother => ?_,
    fun hnone => absurd ⟨least, h.1⟩ hnone⟩
  cases hother
  exact ⟨least, h, hrounds⟩

/-- An exhausted search is exact if there is nothing. -/
theorem exact_of_exhausted {counts : Set Nat} {rounds : Nat} (h : ¬ counts.Nonempty) :
    Exact counts (.exhausted rounds) :=
  ⟨⟨nofun, fun hsome => absurd hsome h⟩, nofun, fun _ => ⟨rounds, rfl⟩⟩

variable {G S : Type} [RandomSource G] [ByteSink S] {config : SearchConfig} {source : G}
variable {phases rounds : Nat} {sink : S}

/-- The ending that is made of a run whose rounds have room is exact, unless the run was
stopped. -/
theorem exact_of_run {last : TargetSearcher G} {notes : Array Entry} {runEnd : RunEnd NodeId}
    {ending : Ending} {session : Session G} (room : 1 ≤ config.width)
    (roomy : Roomy (config.search 0) (opening config source))
    (ran : (opening config source).run (within (config.search 0) phases).policy
      (watch config.roundLimit) rounds #[openingNote config] = .ok (runEnd, notes, last))
    (own : runEnd = .exhausted ∨ ∃ goal, runEnd = .found goal)
    (settled : settle config runEnd notes last = .ok (ending, session))
    (reader : List ReadEvent) (tireless : Tireless sink) :
    Exact (cellCounts (config.search 0) (StreamChannel.mk reader sink)) ending := by
  have hsown := sown_opening room source
  obtain ⟨hafter, hgoal⟩ := hsown.run ran
  have hsays := concludes_of_settle settled
  obtain ⟨⟨n, middle, hquiet, hends⟩, -⟩ := run_parts ran
  have hlater : ∀ count ∈ cellCounts (config.search 0) (StreamChannel.mk reader sink),
      n ≤ count ∧ middle.frontier ≠ [] := fun count => quiet_le_count room roomy hquiet
  rcases own with rfl | ⟨goal, rfl⟩
  · cases hsays
    refine exact_of_exhausted ?_
    rintro ⟨count, hcount⟩
    exact (hlater count hcount).2 hends.2.1
  · obtain ⟨solution, hsolution, hanswer⟩ := hsays
    cases hanswer
    obtain ⟨level, hlevel, hgen⟩ := hgoal goal rfl
    have hmem : goal ∈ goalOf (.found goal) + (0 : Multiset NodeId) :=
      Multiset.mem_add.mpr (.inl (Multiset.mem_singleton_self goal))
    have hrounds := rounds_of_solutionOf hsolution
    have hcount : level = n := by
      obtain ⟨-, -, others, after, hround, -, -, hlast⟩ := hends
      have hquietly := hquiet.round_eq
      have hnext := round_succ hround
      have hfirst : (opening config source).round = 1 := rfl
      omega
    subst hcount
    obtain ⟨count, hsolves, hle⟩ := exists_count_le hafter.holds.ground hgen
      (hafter.holds.isGoal goal hmem) reader tireless
    obtain rfl : count = level := hle.antisymm (hlater count hsolves).1
    exact exact_of_found ⟨hsolves, fun other hother => (hlater other hother).1⟩ (by omega)

/-- A synthesis whose expansions return comes to an ending by itself. -/
theorem ends_by_itself (room : 1 ≤ config.width) (unlimited : config.roundLimit = none)
    (productive : Productive (config.search 0) (opening config source)) :
    ∃ phases rounds runEnd notes last ending session,
      (opening config source).run (within (config.search 0) phases).policy
        (watch config.roundLimit) rounds #[openingNote config] = .ok (runEnd, notes, last) ∧
      (runEnd = .exhausted ∨ ∃ goal, runEnd = .found goal) ∧
      settle config runEnd notes last = .ok (ending, session) := by
  have hsown := sown_opening room source
  obtain ⟨enough, hall⟩ := run_returns hsown productive
  obtain ⟨⟨runEnd, notes, last⟩, hrun⟩ := hall enough Nat.le.refl (watch config.roundLimit)
    (wordSize + 2) #[openingNote config]
  have hgoes : ∀ (notes : Array Entry) (seen : TargetSearcher G),
      (watch config.roundLimit notes seen).2 = true := by
    intro notes seen
    rw [unlimited]
    rfl
  obtain ⟨hown, -⟩ := run_ends_itself hsown hgoes Nat.le.refl hrun
  have ended : runEnd ≠ .unfinished := by
    rintro rfl
    rcases hown with hnot | ⟨goal, hnot⟩ <;> cases hnot
  obtain ⟨⟨ending, session⟩, hsettle⟩ := settles hsown hrun ended config
  exact ⟨enough, wordSize + 2, runEnd, notes, last, ending, session, hrun, hown, hsettle⟩

end Endings

/-- A synthesis without a limit of rounds, all of whose expansions return and whose rounds
have room for the children that they bring up, is exact. It draws no number: with any other
source it comes to the same ending, with the same search and messages, and that source is as
it was. On whatever streams programs are run, it finds one if there is a program for the
target, and reports one round more than the smallest number of cells that such a program
reads; if there is none, it is exhausted. -/
theorem roomy_search_is_exact {G : Type} [RandomSource G] (config : SearchConfig) (source : G)
    (unlimited : config.roundLimit = none)
    (productive : Productive (config.search 0) (opening config source))
    (roomy : Roomy (config.search 0) (opening config source)) :
    ∃ ending, ∃ session : Session G,
      (∀ {H : Type} [RandomSource H] (other : H), ComesTo config other ending
        ⟨session.config, withSource other session.searcher, session.notes⟩) ∧
      ∀ {S : Type} [ByteSink S] (reader : List ReadEvent) (sink : S), Tireless sink →
        Exact (cellCounts (config.search 0) (StreamChannel.mk reader sink)) ending := by
  have room : 1 ≤ config.width := (by decide : 1 ≤ 8).trans (width_of_hasRoom roomy.hasRoom)
  obtain ⟨phases, rounds, runEnd, notes, last, ending, session, hrun, hown, hsettle⟩ :=
    ends_by_itself room unlimited productive
  have hcomes : ComesTo config source ending session :=
    (comesTo_iff room).mpr ⟨phases, rounds, runEnd, notes, last, hrun, hsettle⟩
  refine ⟨ending, session, fun {H} _ other => ?_, fun {S} _ reader sink tireless => ?_⟩
  · exact comesTo_withSource roomy hcomes other
  · exact exact_of_run room roomy hrun hown hsettle reader tireless

/-- With eight places for each of the eight children of the root, a search for no output at
all has room in all its rounds, and draws no number. It finds the shortest program, which
reads one cell, in round two. -/
theorem roomy_search_is_exact_of_exit :
    let config : SearchConfig := ⟨"", 64, none, none, false⟩
    let source := Generator.ofNumbers []
    let channel := StreamChannel.mk [] ScriptedSink.reliable
    config.roundLimit = none ∧
    Productive (config.search 0) (opening config source) ∧
    Roomy (config.search 0) (opening config source) ∧
    ∃ solution session, ComesTo config source (.found solution) session ∧
      session.searcher.source = source ∧ solution.program = ⟨[81]⟩ ∧ solution.rounds = 2 ∧
      IsLeast (cellCounts (config.search 0) channel) 1 := by
  intro config source channel
  have hcourse : Course (config.search 0) (opening config source) 0 :=
    course_of_room (by decide) source
  have hrounds : (((opening config source).searchRound
      (within (config.search 0) 3).policy).bind fun first =>
        (first.2.searchRound (within (config.search 0) 3).policy).map fun last =>
          (first.1, first.2.width, last.1.isEmpty)).toOption = some ([], 64, false) := by cbv
  obtain ⟨⟨found, next⟩, last, hfirst, hlast, hanswer⟩ := rounds_of_answer hrounds
  simp only [Prod.mk.injEq] at hanswer
  obtain ⟨rfl, hwidth, hgoal⟩ := hanswer
  have hnext := hcourse.round 3 hfirst
  rw [Multiset.coe_nil, zero_add] at hnext
  -- The second round finds a goal, so rounds that find nothing lead to the first two only.
  have hreached : ∀ later, Relation.ReflTransGen (Advances (config.search 0))
      (opening config source) later → later = opening config source ∨ later = next := by
    intro later hreach
    rcases hreach.cases_head with rfl | ⟨middle, hadvances, hrest⟩
    · exact .inl rfl
    · obtain ⟨-, rfl⟩ := round_of_advances hadvances hfirst
      rcases hrest.cases_head with rfl | ⟨after, hquiet, -⟩
      · exact .inr rfl
      · rw [(round_of_advances hquiet hlast).1] at hgoal
        cases hgoal
  have productive : Productive (config.search 0) (opening config source) := by
    intro later hreach
    rcases hreached later hreach with rfl | rfl
    · exact (returns_iff hcourse.holds).mpr ⟨3, _, hfirst⟩
    · exact (returns_iff hnext.holds).mpr ⟨3, _, hlast⟩
  have roomy : Roomy (config.search 0) (opening config source) := by
    intro later hreach phases
    rcases hreached later hreach with rfl | rfl
    · exact hasRoom_of_length ((holds_within phases).mpr hcourse.holds) (by decide)
    · refine hasRoom_of_length ((holds_within phases).mpr hnext.holds) ?_
      have hfew := frontier_length_le ((holds_within 3).mpr hcourse.holds) hfirst
      rw [hwidth]
      exact Nat.mul_le_mul_right _ hfew
  refine ⟨rfl, productive, roomy, ?_⟩
  obtain ⟨ending, session, hsame, hexact⟩ :=
    roomy_search_is_exact config source rfl productive roomy
  have hcomes := hsame source
  have hanswer : (synthesizeWithin 3 3 config source).toOption.map (fun answer => answer.1) =
      some (.found ⟨⟨[81]⟩, [], -1, 2⟩) := by cbv
  rcases hok : synthesizeWithin 3 3 config source with failure | ⟨answer, after⟩
  · rw [hok] at hanswer
    cases hanswer
  · rw [hok] at hanswer
    cases hanswer
    obtain ⟨rfl, rfl⟩ := hcomes.unique (comesTo_of_ok hok)
    obtain ⟨least, hleast, hcount⟩ :=
      (hexact [] ScriptedSink.reliable tireless_reliable).rounds_eq _ rfl
    obtain rfl : least = 1 := by
      dsimp only at hcount
      omega
    exact ⟨_, _, hcomes, rfl, rfl, rfl, hleast⟩
end TernarySynth.Proofs.ExactSearch
