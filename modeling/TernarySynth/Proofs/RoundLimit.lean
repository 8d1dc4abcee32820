import TernarySynth.Proofs.SettledRun

/-!
# A limit of rounds

A synthesis with a limit of rounds makes the same run as one without, as long as both
go on: the limit is looked at before a round, and behind the test of the frontier. So
where the run without a limit has ended when the limit is reached, the other has ended
in the same way, with the same search and the same messages; where it has not, the
other stops there. The two runs are followed round by round.
-/

namespace TernarySynth.Proofs.RoundLimit

open RandomSource StateTree BeamSearch TargetSearch Synthesis LogLine
open RoundLedger ExpansionEnd SearchBalance Generations PhaseBounds RoundDepth SettledRun

section Watching

variable {G : Type} {notes : Array Entry} {searcher : TargetSearcher G} {limit : Nat}

/-- Up to the limit a search is watched as if there was none. -/
theorem watch_of_le (h : searcher.round ≤ limit) :
    watch (some limit) notes searcher = watch none notes searcher := by
  rw [watch, watch]
  exact if_neg (Nat.not_lt.mpr h)

/-- Behind the limit it is stopped. -/
theorem watch_of_gt (h : limit < searcher.round) :
    watch (some limit) notes searcher = (notes, false) := by
  rw [watch]
  exact if_pos h

/-- Where a search with a limit goes on, so does one without. -/
theorem watch_unlimited {seen : Array Entry}
    (goesOn : watch (some limit) notes searcher = (seen, true)) :
    searcher.round ≤ limit ∧ watch none notes searcher = (seen, true) := by
  by_cases hle : searcher.round ≤ limit
  · rw [watch_of_le hle] at goesOn
    exact ⟨hle, goesOn⟩
  · rw [watch_of_gt (Nat.lt_of_not_le hle)] at goesOn
    cases goesOn

end Watching

section Lockstep

variable {G : Type} [RandomSource G] {policy : Policy StateTree Breakdown NodeId}
variable {searcher last : TargetSearcher G} {notes notes' : Array Entry}
variable {ending : RunEnd NodeId} {limit rounds : Nat}

/-- A run does not lead back to an earlier round. -/
theorem round_le_of_run {observer : Array Entry → TargetSearcher G → Array Entry × Bool}
    (runs : Runs policy observer rounds notes searcher ending notes' last) :
    searcher.round ≤ last.round := by
  induction runs with
  | unfinished => exact Nat.le.refl
  | exhausted => exact Nat.le.refl
  | stopped => exact Nat.le.refl
  | quiet busy goesOn ran rest ih =>
    have hnext := round_succ ran
    omega
  | found busy goesOn ran released =>
    have hnext := round_succ ran
    dsimp only
    omega

/-- A run without a limit that has ended by the limit is the run with it. -/
theorem run_limited (limit : Nat) (ended : ending ≠ .unfinished) (early : last.round ≤ limit + 1)
    (ok : searcher.run policy (watch none) rounds notes = .ok (ending, notes', last)) :
    searcher.run policy (watch (some limit)) rounds notes = .ok (ending, notes', last) := by
  rw [run_iff] at ok ⊢
  induction ok with
  | unfinished => exact absurd rfl ended
  | exhausted dead => exact .exhausted dead
  | stopped busy stops => cases congrArg Prod.snd stops
  | quiet busy goesOn ran rest ih =>
    -- There is a later round, so the limit is not reached yet.
    have hlater := round_le_of_run rest
    have hnext := round_succ ran
    exact .quiet busy ((watch_of_le (by omega)).trans goesOn) ran (ih ended early)
  | found busy goesOn ran released =>
    have hnext := round_succ ran
    dsimp only at early
    exact .found busy ((watch_of_le (by omega)).trans goesOn) ran released

/-- A run with a limit that was not stopped is the run without it. -/
theorem run_unlimited (onward : ending ≠ .stopped)
    (ok : searcher.run policy (watch (some limit)) rounds notes = .ok (ending, notes', last)) :
    searcher.run policy (watch none) rounds notes = .ok (ending, notes', last) := by
  rw [run_iff] at ok ⊢
  induction ok with
  | unfinished => exact .unfinished
  | exhausted dead => exact .exhausted dead
  | stopped => exact absurd rfl onward
  | quiet busy goesOn ran rest ih => exact .quiet busy (watch_unlimited goesOn).2 ran (ih onward)
  | found busy goesOn ran released => exact .found busy (watch_unlimited goesOn).2 ran released

/-- A run with a limit makes no round behind it, and it is stopped at the limit only. -/
theorem round_of_limited (first : searcher.round ≤ limit + 1)
    (ok : searcher.run policy (watch (some limit)) rounds notes = .ok (ending, notes', last)) :
    last.round ≤ limit + 1 ∧ (ending = .stopped → last.round = limit + 1) := by
  rw [run_iff] at ok
  induction ok with
  | unfinished => exact ⟨first, nofun⟩
  | exhausted => exact ⟨first, nofun⟩
  | @stopped _ _ _ searcher busy stops =>
    have hover : ¬ searcher.round ≤ limit := by
      intro hle
      rw [watch_of_le hle] at stops
      cases congrArg Prod.snd stops
    exact ⟨first, fun _ => by omega⟩
  | quiet busy goesOn ran rest ih =>
    have hnext := round_succ ran
    have hle := (watch_unlimited goesOn).1
    exact ih (by omega)
  | found busy goesOn ran released =>
    have hnext := round_succ ran
    have hle := (watch_unlimited goesOn).1
    exact ⟨by dsimp only; omega, nofun⟩

end Lockstep

section Syntheses

variable {G : Type} [RandomSource G] {config : SearchConfig} {source : G}
variable {ending : Ending} {session : Session G} {limit more : Nat}

/-- The same parameters with this limit of rounds. -/
def withLimit (config : SearchConfig) (roundLimit : Option Nat) : SearchConfig :=
  { config with roundLimit := roundLimit }

/-- A synthesis with some limit comes to the ending of a run that it makes with that limit. -/
theorem comesTo_withLimit (room : 1 ≤ config.width) (roundLimit : Option Nat) :
    ComesTo (withLimit config roundLimit) source ending session ↔ ∃ phases rounds runEnd notes last,
      (opening config source).run (within (config.search 0) phases).policy (watch roundLimit)
        rounds #[openingNote config] = .ok (runEnd, notes, last) ∧
      settle (withLimit config roundLimit) runEnd notes last = .ok (ending, session) :=
  comesTo_iff room

/-- An ending that is reached by the limit is reached with it. -/
theorem comesTo_limited (h : ComesTo (withLimit config none) source ending session)
    (early : roundsOf ending ≤ limit) :
    ComesTo (withLimit config (some limit)) source ending
      { session with config := withLimit config (some limit) } := by
  have room : 1 ≤ config.width := h.room
  obtain ⟨phases, rounds, runEnd, notes, last, hrun, hsettle⟩ := (comesTo_withLimit room none).mp h
  have hcount := roundsOf_settle hsettle
  have ended : runEnd ≠ .unfinished := by
    rintro rfl
    cases hsettle
  have hlimited := run_limited limit ended (by omega) hrun
  exact (comesTo_withLimit room _).mpr
    ⟨phases, rounds, runEnd, notes, last, hlimited, settle_config hsettle _⟩

/-- An ending that is reached with a limit, and is no stop, is reached without it. -/
theorem comesTo_unlimited (h : ComesTo (withLimit config (some limit)) source ending session)
    (onward : ∀ rounds, ending ≠ .stopped rounds) :
    ComesTo (withLimit config none) source ending
      { session with config := withLimit config none } := by
  have room : 1 ≤ config.width := h.room
  obtain ⟨phases, rounds, runEnd, notes, last, hrun, hsettle⟩ := (comesTo_withLimit room _).mp h
  have hgoes : runEnd ≠ .stopped := by
    rintro rfl
    cases hsettle
    exact onward _ rfl
  exact (comesTo_withLimit room none).mpr
    ⟨phases, rounds, runEnd, notes, last, run_unlimited hgoes hrun, settle_config hsettle _⟩

/-- A synthesis with a limit reports no more rounds than that, and so many if it is
stopped. -/
theorem roundsOf_limited (h : ComesTo (withLimit config (some limit)) source ending session) :
    roundsOf ending ≤ limit ∧ ∀ rounds, ending = .stopped rounds → rounds = limit := by
  have room : 1 ≤ config.width := h.room
  obtain ⟨phases, rounds, runEnd, notes, last, hrun, hsettle⟩ := (comesTo_withLimit room _).mp h
  have hfirst : (opening config source).round ≤ limit + 1 := by
    dsimp only [opening]
    omega
  obtain ⟨hle, hstop⟩ := round_of_limited hfirst hrun
  have hcount := roundsOf_settle hsettle
  refine ⟨by omega, fun stoppedAt hending => ?_⟩
  subst hending
  have hsays := concludes_of_settle hsettle
  cases runEnd with
  | unfinished => cases hsays
  | exhausted => cases hsays
  | stopped =>
    have hlast := hstop rfl
    dsimp only [roundsOf] at hcount
    omega
  | found goal =>
    obtain ⟨solution, -, hanswer⟩ := hsays
    cases hanswer

/-- Where the rounds up to the limit return, a synthesis with it comes to an ending. -/
theorem comesTo_of_returns (room : 1 ≤ config.width) (limit : Nat)
    (returns : ∀ later, Relation.ReflTransGen (Advances (config.search 0)) (opening config source)
      later → later.round ≤ limit → Returns (config.search 0) later) :
    ∃ ending session, ComesTo (withLimit config (some limit)) source ending session := by
  have hsown := sown_opening room source
  obtain ⟨enough, hall⟩ := run_returns_while (fun later => later.round ≤ limit) hsown returns
  have hstops : ∀ (notes : Array Entry) (seen : TargetSearcher G), ¬ seen.round ≤ limit →
      (watch (some limit) notes seen).2 = false := by
    intro notes seen hover
    rw [watch_of_gt (Nat.lt_of_not_le hover)]
  obtain ⟨⟨runEnd, notes, last⟩, hrun⟩ :=
    hall enough Nat.le.refl (watch (some limit)) hstops (limit + 1) #[openingNote config]
  have ended : runEnd ≠ .unfinished := by
    rintro rfl
    obtain ⟨⟨n, middle, hquiet, hlast, hn⟩, -⟩ := run_parts hrun
    have hfirst : (opening config source).round = 1 := rfl
    have hcount := hquiet.round_eq
    have hle := (round_of_limited (by omega) hrun).1
    rw [hlast] at hle
    omega
  obtain ⟨⟨ending, session⟩, hsettle⟩ := settles hsown hrun ended (withLimit config (some limit))
  exact ⟨ending, session,
    (comesTo_withLimit room _).mpr ⟨enough, limit + 1, runEnd, notes, last, hrun, hsettle⟩⟩

/-- A search whose frontier dies out after rounds that find nothing makes a run that is
exhausted. -/
theorem run_of_advances {target : Target} {searcher last : TargetSearcher G}
    (h : Relation.ReflTransGen (Advances target) searcher last) (dead : last.frontier = []) :
    ∃ phases rounds, ∀ notes, ∃ notes', searcher.run (within target phases).policy (watch none)
      rounds notes = .ok (.exhausted, notes', last) := by
  induction h using Relation.ReflTransGen.head_induction_on with
  | refl => exact ⟨0, 1, fun notes => ⟨notes, run_iff.mpr (.exhausted dead)⟩⟩
  | @head searcher next hstep _ ih =>
    obtain ⟨busy, bound, hround⟩ := hstep
    obtain ⟨phases, rounds, hall⟩ := ih
    refine ⟨max bound phases, rounds + 1, fun notes => ?_⟩
    obtain ⟨notes', hrun⟩ := hall (watch none notes searcher).1
    have hround' := searchRound_mono (Nat.le_max_left bound phases) hround
    have hrun' := run_mono (Nat.le_max_right bound phases) hrun
    exact ⟨notes', run_iff.mpr (.quiet busy rfl hround' (run_iff.mp hrun'))⟩

/-- A limit of rounds only cuts a run short. An ending of the synthesis without a limit
that reports no more rounds than the limit is the ending with it, with the same search and
messages; otherwise the synthesis with the limit is stopped there, where the rounds up to
it return. It never reports more rounds. What it has found or exhausted it also finds or
exhausts with a larger limit, and a frontier that dies out in the last round that is allowed
is reported as exhausted. -/
theorem limit_cuts_short (config : SearchConfig) (source : G) (limit : Nat)
    (room : 1 ≤ config.width) :
    (∀ ending session, ComesTo (withLimit config none) source ending session →
      roundsOf ending ≤ limit → ComesTo (withLimit config (some limit)) source ending
        { session with config := withLimit config (some limit) }) ∧
    ((∀ later, Relation.ReflTransGen (Advances (config.search 0)) (opening config source) later →
        later.round ≤ limit → Returns (config.search 0) later) →
      (∀ ending session, ComesTo (withLimit config none) source ending session →
        limit < roundsOf ending) →
      ∃ session, ComesTo (withLimit config (some limit)) source (.stopped limit) session) ∧
    (∀ ending session, ComesTo (withLimit config (some limit)) source ending session →
      roundsOf ending ≤ limit) ∧
    (∀ more ending session, limit ≤ more →
      ComesTo (withLimit config (some limit)) source ending session →
      (∀ rounds, ending ≠ .stopped rounds) →
      ComesTo (withLimit config (some more)) source ending
        { session with config := withLimit config (some more) }) ∧
    ∀ last, Relation.ReflTransGen (Advances (config.search 0)) (opening config source) last →
      last.round = limit + 1 → last.frontier = [] →
      ∃ session, ComesTo (withLimit config (some limit)) source (.exhausted limit) session := by
  refine ⟨fun ending session h early => comesTo_limited h early, fun returns late => ?_,
    fun ending session h => (roundsOf_limited h).1, fun more ending session hle h onward => ?_,
    fun last hreach hcount dead => ?_⟩
  · obtain ⟨ending, session, h⟩ := comesTo_of_returns room limit returns
    by_cases hstop : ∃ rounds, ending = .stopped rounds
    · obtain ⟨rounds, rfl⟩ := hstop
      have hrounds := (roundsOf_limited h).2 rounds rfl
      rw [hrounds] at h
      exact ⟨session, h⟩
    · have hfree := comesTo_unlimited h fun rounds hending => hstop ⟨rounds, hending⟩
      have hlate := late ending _ hfree
      have hearly := (roundsOf_limited h).1
      exact absurd hearly (Nat.not_le.mpr hlate)
  · have hearly := (roundsOf_limited h).1
    have hfree := comesTo_unlimited h onward
    have hmore := comesTo_limited hfree (hearly.trans hle)
    exact hmore
  · obtain ⟨phases, rounds, hall⟩ := run_of_advances hreach dead
    obtain ⟨notes, hrun⟩ := hall #[openingNote config]
    have hlimited := run_limited limit (by nofun) hcount.le hrun
    have hrounds : last.round - 1 = limit := by omega
    have hsettle : settle (withLimit config (some limit)) .exhausted notes last =
        .ok (Session.close ⟨withLimit config (some limit), last, notes⟩ (.exhausted limit)) := by
      rw [settle, hrounds]
    exact ⟨_, (comesTo_withLimit room _).mpr
      ⟨phases, rounds, .exhausted, notes, last, hlimited, hsettle⟩⟩

end Syntheses

/-- Rounds are counted along a search. -/
theorem round_le_of_advances {G : Type} [RandomSource G] {target : Target}
    {searcher later : TargetSearcher G}
    (h : Relation.ReflTransGen (Advances target) searcher later) :
    searcher.round ≤ later.round := by
  induction h with
  | refl => exact Nat.le.refl
  | tail _ hstep ih =>
    obtain ⟨-, phases, hround⟩ := hstep
    have hnext := round_succ hround
    omega

/-- A search for no output at all, with numbers that keep the one node that exits, finds
its program in round two. A limit of two rounds changes nothing, and a limit of one round
stops it there. -/
theorem limit_cuts_short_of_exit :
    let config : SearchConfig := ⟨"", 1, none, none, false⟩
    let source := Generator.ofNumbers
      [3758096384, 0, 3579139414, 3435973837, 3221225472, 2863311531, 2147483648]
    1 ≤ config.width ∧
    ∃ session, ComesTo (withLimit config none) source (.found ⟨⟨[81]⟩, [], -1, 2⟩) session ∧
      ComesTo (withLimit config (some 2)) source (.found ⟨⟨[81]⟩, [], -1, 2⟩)
        { session with config := withLimit config (some 2) } ∧
      ∃ stopped, ComesTo (withLimit config (some 1)) source (.stopped 1) stopped := by
  intro config source
  have room : 1 ≤ config.width := by decide
  have hanswer : (synthesizeWithin 1 3 config source).toOption.map (fun answer => answer.1) =
      some (.found ⟨⟨[81]⟩, [], -1, 2⟩) := by cbv
  rcases hok : synthesizeWithin 1 3 config source with failure | ⟨ending, session⟩
  · rw [hok] at hanswer
    cases hanswer
  · rw [hok] at hanswer
    cases hanswer
    have hfree : ComesTo (withLimit config none) source _ session := comesTo_of_ok hok
    obtain ⟨hkept, -⟩ := limit_cuts_short config source 2 room
    obtain ⟨-, hstops, -⟩ := limit_cuts_short config source 1 room
    refine ⟨room, session, hfree, hkept _ _ hfree Nat.le.refl, hstops (fun later hreach hle => ?_)
      fun ending session' h => ?_⟩
    · -- Only the opening itself is before round two.
      rcases hreach.cases_head with rfl | ⟨next, ⟨-, phases, hround⟩, hrest⟩
      · have hround : ((opening config source).searchRound
            (within (config.search 0) 1).policy).toOption.map (fun answer => answer.1) =
              some [] := by cbv
        rcases hfirst : (opening config source).searchRound (within (config.search 0) 1).policy with
          reason | result
        · rw [hfirst] at hround
          cases hround
        · have hcourse : Course (config.search 0) (opening config source) 0 :=
            course_of_room room source
          exact (returns_iff hcourse.holds).mpr ⟨1, result, hfirst⟩
      · have hnext := round_succ hround
        have hlater := round_le_of_advances hrest
        have hfirst : (opening config source).round = 1 := rfl
        omega
    · rw [(h.unique hfree).1]
      decide

end TernarySynth.Proofs.RoundLimit
