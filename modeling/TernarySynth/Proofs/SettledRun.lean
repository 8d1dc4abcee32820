import TernarySynth.Proofs.RoundDepth

/-!
# A synthesis settles a run

A synthesis makes one run of its search, from the root alone, and settles what the run
came to: it counts the rounds, and writes out the goal and gives it back. An ending that
it has come to within some bounds on phases and rounds it comes to within all larger
ones. So one may say that a synthesis comes to an ending, and mean any bounds that are
large enough.
-/

namespace TernarySynth.Proofs.SettledRun

open RandomSource StateTree BeamSearch TargetSearch Synthesis LogLine
open TreeLine TargetLedger RoundLedger ExpansionEnd SearchBalance Generations PhaseBounds
open RoundDepth

section Runs

variable {σ ε N G ω : Type} [RandomSource G]

/-- A run that has ended ends so when it may go on for more rounds. -/
theorem run_fuel {policy : Policy σ ε N} {observer : ω → Searcher σ N G → ω × Bool}
    {limit more : Nat} {notes notes' : ω} {searcher searcher' : Searcher σ N G}
    {ending : RunEnd N} (hle : limit ≤ more) (ended : ending ≠ .unfinished)
    (ok : searcher.run policy observer limit notes = .ok (ending, notes', searcher')) :
    searcher.run policy observer more notes = .ok (ending, notes', searcher') := by
  rw [run_iff] at ok ⊢
  induction ok generalizing more with
  | unfinished => exact absurd rfl ended
  | exhausted dead =>
    obtain ⟨more, rfl⟩ := Nat.exists_eq_add_of_le' hle
    exact .exhausted dead
  | stopped busy stops =>
    obtain ⟨more, rfl⟩ := Nat.exists_eq_add_of_le' hle
    exact .stopped busy stops
  | quiet busy goesOn ran rest ih =>
    obtain ⟨more, rfl⟩ := Nat.exists_eq_add_of_le' hle
    exact .quiet busy goesOn ran (ih (Nat.le_add_left _ _) ended)
  | found busy goesOn ran released =>
    obtain ⟨more, rfl⟩ := Nat.exists_eq_add_of_le' hle
    exact .found busy goesOn ran released

variable {target : Target} {searcher : Searcher StateTree NodeId G} {phases more : Nat}

/-- A run that returns with some bound on the phases of an expansion returns the same with
a larger one. -/
theorem run_mono {observer : ω → Searcher StateTree NodeId G → ω × Bool} {limit : Nat}
    {notes : ω} {result : RunEnd NodeId × ω × Searcher StateTree NodeId G} (hle : phases ≤ more)
    (ok : searcher.run (within target phases).policy observer limit notes = .ok result) :
    searcher.run (within target more).policy observer limit notes = .ok result := by
  obtain ⟨ending, notes', last⟩ := result
  rw [run_iff] at ok ⊢
  induction ok with
  | unfinished => exact .unfinished
  | exhausted dead => exact .exhausted dead
  | stopped busy stops => exact .stopped busy stops
  | quiet busy goesOn ran rest ih => exact .quiet busy goesOn (searchRound_mono hle ran) ih
  | found busy goesOn ran released =>
    rw [releaseAll_within] at released
    exact .found busy goesOn (searchRound_mono hle ran)
      ((releaseAll_within _ _ _ _).trans released)

end Runs

section Settling

variable {G : Type} [RandomSource G] {config : SearchConfig} {source : G}
variable {phases rounds : Nat}

/-- The search with which a synthesis begins. -/
def opening (config : SearchConfig) (source : G) : TargetSearcher G :=
  ⟨config.width, ⟨#[⟨.root, 1⟩], [], 1⟩, [0], 1, source⟩

omit [RandomSource G] in
/-- It is a search from the root, if there is room for a node. -/
theorem ofRoot_opening (room : 1 ≤ config.width) (source : G) :
    Searcher.ofRoot config.width ⟨#[⟨.root, 1⟩], [], 1⟩ 0 source = .ok (opening config source) :=
  if_neg (Nat.one_le_iff_ne_zero.mp room)

/-- So it has its frontier in hand, which is the first generation. -/
theorem sown_opening (room : 1 ≤ config.width) (source : G) :
    Sown (config.search 0) (opening config source) 0 :=
  sown_of_course (.start rfl (ofRoot_opening room source))

/-- What a synthesis makes of a run: its ending, and the session in which it was
reached. -/
def settle (config : SearchConfig) (ending : RunEnd NodeId) (notes : Array Entry)
    (searcher : TargetSearcher G) : Except Failure (Ending × Session G) :=
  match ending with
  | .unfinished => .error .unfinished
  | .exhausted => .ok (Session.close ⟨config, searcher, notes⟩ (.exhausted (searcher.round - 1)))
  | .stopped => .ok (Session.close ⟨config, searcher, notes⟩ (.stopped (searcher.round - 1)))
  | .found goal =>
    match solutionOf searcher.state goal (searcher.round - 1) with
    | .error reason => .error (.breakdown reason)
    | .ok solution =>
      match outcome (release goal searcher.state) with
      | .error reason => .error (.breakdown reason)
      | .ok (_, tree) =>
        .ok (Session.close ⟨config, { searcher with state := tree }, notes⟩ (.found solution))

omit [RandomSource G] in
/-- What is settled depends on the run alone: parameters are passed on, and so are the
messages before those of the run. -/
theorem settle_course (ending : RunEnd NodeId) (notes : Array Entry)
    (searcher : TargetSearcher G) :
    ∃ course : Except Failure (Ending × TargetSearcher G × Array Entry), ∀ config before,
      settle config ending (before ++ notes) searcher =
        course.map fun answer => (answer.1, ⟨config, answer.2.1, before ++ answer.2.2⟩) := by
  cases ending with
  | unfinished => exact ⟨.error .unfinished, fun _ _ => rfl⟩
  | exhausted =>
    refine ⟨.ok (.exhausted (searcher.round - 1), searcher,
      notes.push (closingNote (.exhausted (searcher.round - 1)))), fun config before => ?_⟩
    simp only [settle, Session.close, Except.map, Array.push_append]
  | stopped =>
    refine ⟨.ok (.stopped (searcher.round - 1), searcher,
      notes.push (closingNote (.stopped (searcher.round - 1)))), fun config before => ?_⟩
    simp only [settle, Session.close, Except.map, Array.push_append]
  | found goal =>
    simp only [settle]
    cases solutionOf searcher.state goal (searcher.round - 1) with
    | error reason => exact ⟨.error (.breakdown reason), fun _ _ => rfl⟩
    | ok solution =>
      dsimp only
      rcases outcome (release goal searcher.state) with reason | ⟨_, tree⟩
      · exact ⟨.error (.breakdown reason), fun _ _ => rfl⟩
      · refine ⟨.ok (.found solution, { searcher with state := tree },
          notes.push (closingNote (.found solution))), fun config before => ?_⟩
        simp only [Session.close, Except.map, Array.push_append]

omit [RandomSource G] in
/-- So other parameters settle the same run in the same way. -/
theorem settle_config {ending : RunEnd NodeId} {notes : Array Entry} {searcher : TargetSearcher G}
    {answer : Ending} {session : Session G}
    (h : settle config ending notes searcher = .ok (answer, session)) (other : SearchConfig) :
    settle other ending notes searcher = .ok (answer, { session with config := other }) := by
  obtain ⟨course, hcourse⟩ := settle_course ending notes searcher
  have hone := hcourse config #[]
  have hother := hcourse other #[]
  simp only [Array.empty_append] at hone hother
  rw [hone] at h
  rw [hother]
  rcases course with failure | ⟨found, last, after⟩
  · cases h
  · cases h
    rfl

/-- With room for a node, a synthesis settles the run from its opening. -/
theorem synthesizeWithin_eq (room : 1 ≤ config.width) (phases rounds : Nat) (source : G) :
    synthesizeWithin phases rounds config source =
      match (opening config source).run (config.search phases).policy (watch config.roundLimit)
        rounds #[openingNote config] with
      | .error reason => .error (.breakdown reason)
      | .ok (ending, notes, searcher) => settle config ending notes searcher := by
  have begins := ofRoot_opening room source
  have made : root ⟨#[], [], 0⟩ = .ok 0 ⟨#[⟨.root, 1⟩], [], 1⟩ := rfl
  have hstart : Session.start config source =
      .ok ⟨config, opening config source, #[openingNote config]⟩ := by
    simp only [Session.start, made, begins]
  rw [synthesizeWithin, hstart]
  dsimp only
  rw [Session.runWithin]
  dsimp only
  rcases (opening config source).run (config.search phases).policy (watch config.roundLimit)
    rounds #[openingNote config] with reason | ⟨ending, notes, searcher⟩
  · rfl
  · cases ending with
    | unfinished => rfl
    | exhausted => rfl
    | stopped => rfl
    | found goal =>
      dsimp only [settle]
      rcases solutionOf searcher.state goal (searcher.round - 1) with reason | solution
      · rfl
      · dsimp only
        rcases outcome (release goal searcher.state) with reason | ⟨_, tree⟩ <;> rfl

/-- Without room for a node, it does not begin. -/
theorem synthesizeWithin_of_noRoom (h : config.width = 0) (phases rounds : Nat) (source : G) :
    synthesizeWithin phases rounds config source = .error (.setup .zeroWidth) := by
  have made : root ⟨#[], [], 0⟩ = .ok 0 ⟨#[⟨.root, 1⟩], [], 1⟩ := rfl
  simp only [synthesizeWithin, Session.start, made, Searcher.ofRoot, if_pos h]

/-- A run that has ended can be settled: its goal is live, and it is in hand. -/
theorem settles {target : Target} {searcher last : TargetSearcher G}
    {observer : Array Entry → TargetSearcher G → Array Entry × Bool} {limit : Nat}
    {notes notes' : Array Entry} {ending : RunEnd NodeId} (h : Sown target searcher 0)
    (ok : searcher.run (within target phases).policy observer limit notes =
      .ok (ending, notes', last))
    (ended : ending ≠ .unfinished) (config : SearchConfig) :
    ∃ answer, settle config ending notes' last = .ok answer := by
  have hground := (h.run ok).1.holds.ground
  cases ending with
  | unfinished => exact absurd rfl ended
  | exhausted => exact ⟨_, rfl⟩
  | stopped => exact ⟨_, rfl⟩
  | found goal =>
    rw [goalOf, add_zero, add_comm, Multiset.singleton_add] at hground
    obtain ⟨node, line, hline⟩ := hground.books.line_of_mem (Multiset.mem_cons_self goal _)
    have hnode : last.state.node? goal = .ok node := hline.node?_of_mem List.mem_cons_self
    obtain ⟨after, hr, -, -⟩ := hground.release
    simp only [settle, solutionOf, hnode, hline.decisions_eq, hr, outcome]
    exact ⟨_, rfl⟩

omit [RandomSource G] in
/-- What was settled is what the end of the run says. -/
theorem concludes_of_settle {ending : RunEnd NodeId} {notes : Array Entry}
    {searcher : TargetSearcher G} {answer : Ending} {session : Session G}
    (h : settle config ending notes searcher = .ok (answer, session)) :
    Concludes searcher ending (some answer) := by
  cases ending with
  | unfinished => cases h
  | exhausted =>
    cases h
    rfl
  | stopped =>
    cases h
    rfl
  | found goal =>
    dsimp only [settle] at h
    split at h
    next => cases h
    next solution hsolution =>
      split at h
      next => cases h
      next =>
        cases h
        exact ⟨solution, hsolution, rfl⟩

/-- The number of rounds that an ending reports. -/
def roundsOf : Ending → Nat
  | .found solution => solution.rounds
  | .exhausted rounds => rounds
  | .stopped rounds => rounds

/-- A solution reports the round that it was found in. -/
theorem rounds_of_solutionOf {tree : StateTree} {goal : NodeId} {rounds : Nat}
    {solution : Solution} (h : solutionOf tree goal rounds = .ok solution) :
    solution.rounds = rounds := by
  rw [solutionOf] at h
  split at h
  next => cases h
  next =>
    split at h
    next => cases h
    next =>
      cases h
      rfl

omit [RandomSource G] in
/-- An ending reports the number of rounds that were run. -/
theorem roundsOf_settle {ending : RunEnd NodeId} {notes : Array Entry}
    {searcher : TargetSearcher G} {answer : Ending} {session : Session G}
    (h : settle config ending notes searcher = .ok (answer, session)) :
    roundsOf answer = searcher.round - 1 := by
  have hsays := concludes_of_settle h
  cases ending with
  | unfinished => cases hsays
  | exhausted =>
    cases hsays
    rfl
  | stopped =>
    cases hsays
    rfl
  | found goal =>
    obtain ⟨solution, hsolution, hanswer⟩ := hsays
    cases hanswer
    exact rounds_of_solutionOf hsolution

/-- A synthesis comes to this ending, in this session, with all bounds on phases and
rounds that are large enough. -/
def ComesTo (config : SearchConfig) (source : G) (ending : Ending) (session : Session G) : Prop :=
  ∃ enough, ∀ phases rounds, enough ≤ phases → enough ≤ rounds →
    synthesizeWithin phases rounds config source = .ok (ending, session)

variable {ending other : Ending} {session session' : Session G}

/-- It comes to one ending only. -/
theorem ComesTo.unique (h : ComesTo config source ending session)
    (h' : ComesTo config source other session') : ending = other ∧ session = session' := by
  obtain ⟨enough, hall⟩ := h
  obtain ⟨enough', hall'⟩ := h'
  have hone := hall (max enough enough') (max enough enough') (Nat.le_max_left _ _)
    (Nat.le_max_left _ _)
  have hother := hall' (max enough enough') (max enough enough') (Nat.le_max_right _ _)
    (Nat.le_max_right _ _)
  exact Prod.mk.inj (Except.ok.inj (hone.symm.trans hother))

/-- A synthesis that gives an ending has room for a node. -/
theorem room_of_ok (ok : synthesizeWithin phases rounds config source = .ok (ending, session)) :
    1 ≤ config.width := by
  by_contra hroom
  have hnone := synthesizeWithin_of_noRoom (Nat.lt_one_iff.mp (Nat.lt_of_not_le hroom)) phases
    rounds source
  cases hnone.symm.trans ok

/-- So does one that comes to an ending. -/
theorem ComesTo.room (h : ComesTo config source ending session) : 1 ≤ config.width := by
  obtain ⟨enough, hall⟩ := h
  exact room_of_ok (hall enough enough Nat.le.refl Nat.le.refl)

/-- An ending was settled. -/
theorem settled_of_ok (room : 1 ≤ config.width)
    (ok : synthesizeWithin phases rounds config source = .ok (ending, session)) :
    ∃ runEnd notes last,
      (opening config source).run (within (config.search 0) phases).policy
        (watch config.roundLimit) rounds #[openingNote config] = .ok (runEnd, notes, last) ∧
      settle config runEnd notes last = .ok (ending, session) := by
  rw [synthesizeWithin_eq room] at ok
  split at ok
  next => cases ok
  next runEnd notes last hrun => exact ⟨runEnd, notes, last, hrun, ok⟩

/-- With room for a node, a synthesis comes to the ending that it makes of a run from its
opening, whatever the bounds of that run. -/
theorem comesTo_iff (room : 1 ≤ config.width) :
    ComesTo config source ending session ↔ ∃ phases rounds runEnd notes last,
      (opening config source).run (within (config.search 0) phases).policy
        (watch config.roundLimit) rounds #[openingNote config] = .ok (runEnd, notes, last) ∧
      settle config runEnd notes last = .ok (ending, session) := by
  constructor
  · rintro ⟨enough, hall⟩
    exact ⟨enough, enough, settled_of_ok room (hall enough enough Nat.le.refl Nat.le.refl)⟩
  · rintro ⟨bound, limit, runEnd, notes, last, hrun, hsettle⟩
    have ended : runEnd ≠ .unfinished := by
      rintro rfl
      cases hsettle
    refine ⟨max bound limit, fun phases rounds hphases hrounds => ?_⟩
    have hrun' := run_fuel ((Nat.le_max_right _ _).trans hrounds) ended
      (run_mono ((Nat.le_max_left _ _).trans hphases) hrun)
    have hrun'' : (opening config source).run (config.search phases).policy _ _ _ = _ := hrun'
    rw [synthesizeWithin_eq room, hrun'']
    exact hsettle

/-- So an ending that is reached once is the one that it comes to. -/
theorem comesTo_of_ok
    (ok : synthesizeWithin phases rounds config source = .ok (ending, session)) :
    ComesTo config source ending session := by
  have room := room_of_ok ok
  exact (comesTo_iff room).mpr ⟨phases, rounds, settled_of_ok room ok⟩

end Settling

end TernarySynth.Proofs.SettledRun
