import TernarySynth.Proofs.SettledRun

/-!
# The case of the letters of a target

A search looks at its target in two places: at one byte when a node has written
something, and at all of them when a node exits. Both compare letters without
regard to case, so targets with the same letters make the same policy, and two
searches that begin alike go on alike: in every round they have the same tree,
the same frontier and the same source of numbers. The message with which a
synthesis begins is the only place where the case of a letter shows.
-/

namespace TernarySynth.Proofs.LetterCase

open RandomSource BeamSearch StateTree TargetSearch Synthesis LogLine
open SettledRun

section Targets

variable {one other : Target}

/-- Targets that differ in the case of letters only. -/
structure SameSearch (one other : Target) : Prop where
  /-- Their letters are the same. -/
  letters : sameLetters one.bytes other.bytes = true
  /-- Both make no-ops of the same cells. -/
  lenient : one.lenient = other.lenient
  /-- A node may run for as long. -/
  phaseLimit : one.phaseLimit = other.phaseLimit

/-- The same output is on track. -/
theorem SameSearch.onTrack (h : SameSearch one other) (output : List UInt8) :
    one.onTrack output = other.onTrack output := by
  have hfolded : one.bytes.map foldCase = other.bytes.map foldCase := beq_iff_eq.mp h.letters
  have hwanted : (one.bytes[output.length - 1]?).map foldCase =
      (other.bytes[output.length - 1]?).map foldCase := by
    rw [← List.getElem?_map, ← List.getElem?_map, hfolded]
  unfold Target.onTrack
  cases output.getLast? with
  | none => rfl
  | some last =>
    dsimp only
    cases hone : one.bytes[output.length - 1]? with
    | none =>
      rw [hone, Option.map_none] at hwanted
      rw [Option.map_eq_none_iff.mp hwanted.symm]
    | some wanted =>
      rw [hone, Option.map_some] at hwanted
      obtain ⟨wanted', hother, hfold⟩ := Option.map_eq_some_iff.mp hwanted.symm
      rw [hother]
      dsimp only
      rw [hfold]

/-- The same output meets the target. -/
theorem SameSearch.isMet (h : SameSearch one other) (output : List UInt8) :
    one.isMet output = other.isMet output := by
  have hfolded : one.bytes.map foldCase = other.bytes.map foldCase := beq_iff_eq.mp h.letters
  rw [Target.isMet, Target.isMet, sameLetters, sameLetters, hfolded]

/-- A node that runs on comes to the same end. -/
theorem SameSearch.expandFrom (h : SameSearch one other) (origin : NodeId) (phases : Nat)
    (current : NodeId) :
    one.expandFrom origin phases current = other.expandFrom origin phases current := by
  induction phases generalizing current with
  | zero => rfl
  | succ phases ih => simp only [Target.expandFrom, h.lenient, h.isMet, h.onTrack, ih]

/-- So the searches have one policy. -/
theorem SameSearch.policy (h : SameSearch one other) : one.policy = other.policy := by
  have hexpand : one.expand = other.expand := by
    funext id
    rw [Target.expand, Target.expand, h.phaseLimit, h.expandFrom]
  rw [Target.policy, Target.policy, hexpand]

end Targets

section Histories

variable {σ ε N G : Type} [RandomSource G]

/-- What so many rounds come to, one after the other: the goals of each and the search
after it. A round that breaks down is the last one. -/
def history (policy : Policy σ ε N) :
    Nat → Searcher σ N G → List (Except ε (List N × Searcher σ N G))
  | 0, _ => []
  | rounds + 1, searcher =>
    match searcher.searchRound policy with
    | .error reason => [.error reason]
    | .ok (found, next) => .ok (found, next) :: history policy rounds next

end Histories

section Notes

variable {σ ε N G ω ω' : Type} [RandomSource G] {policy : Policy σ ε N} {view : ω → ω'}
variable {observer : ω → Searcher σ N G → ω × Bool}
variable {observer' : ω' → Searcher σ N G → ω' × Bool}

/-- A run whose observer makes the same of other notes goes the same way, and ends with
the other notes. -/
theorem run_notes
    (h : ∀ notes seen, observer' (view notes) seen = (observer notes seen).map view id)
    (limit : Nat) (notes : ω) (searcher : Searcher σ N G) :
    searcher.run policy observer' limit (view notes) =
      (searcher.run policy observer limit notes).map (Prod.map id (Prod.map view id)) := by
  induction limit generalizing notes searcher with
  | zero => rfl
  | succ limit ih =>
    rw [Searcher.run, Searcher.run, h]
    by_cases hempty : searcher.frontier.isEmpty = true
    · rw [if_pos hempty, if_pos hempty]
      rfl
    · rw [if_neg hempty, if_neg hempty]
      rcases observer notes searcher with ⟨seen, onward⟩
      cases onward with
      | false => rfl
      | true =>
        simp only [Prod.map_apply, id_eq]
        rcases searcher.searchRound policy with reason | ⟨found, next⟩
        · rfl
        · cases found with
          | nil => exact ih seen next
          | cons goal others =>
            dsimp only
            rcases policy.releaseAll others next.state with reason | state <;> rfl

end Notes

section Sessions

variable {G : Type} [RandomSource G]

omit [RandomSource G] in
/-- A search is watched without regard to the messages before. -/
theorem watch_append (roundLimit : Option Nat) (before notes : Array Entry)
    (searcher : TargetSearcher G) :
    watch roundLimit (before ++ notes) searcher =
      (watch roundLimit notes searcher).map (before ++ ·) id := by
  have hround : watch.noteRound (before ++ notes) searcher =
      before ++ watch.noteRound notes searcher := by
    unfold watch.noteRound
    cases searcher.best? with
    | none => rfl
    | some id =>
      dsimp only
      cases searcher.state.node? id with
      | error reason => rfl
      | ok node =>
        dsimp only
        apply Array.ext'
        simp only [Array.toList_append, Array.toList_appendList, List.append_assoc]
  unfold watch
  cases roundLimit with
  | none =>
    dsimp only
    rw [hround]
    rfl
  | some limit =>
    dsimp only
    by_cases hover : limit < searcher.round
    · rw [if_pos hover, if_pos hover]
      rfl
    · rw [if_neg hover, if_neg hover, hround]
      rfl

/-- The end of a synthesis with these parameters: an ending, a search and messages, behind
the one with which it begins. -/
def titled (config : SearchConfig) (course : Ending × TargetSearcher G × Array Entry) :
    Ending × Session G :=
  (course.1, ⟨config, course.2.1, #[openingNote config] ++ course.2.2⟩)

/-- A synthesis looks at its target through the letters of it only, apart from the opening
message. -/
theorem synthesizeWithin_titled {config other : SearchConfig} {phases : Nat}
    (same : SameSearch (config.search phases) (other.search phases))
    (width : other.width = config.width) (limit : other.roundLimit = config.roundLimit)
    (rounds : Nat) (source : G) :
    ∃ course : Except Failure (Ending × TargetSearcher G × Array Entry),
      synthesizeWithin phases rounds config source = course.map (titled config) ∧
      synthesizeWithin phases rounds other source = course.map (titled other) := by
  by_cases hroom : config.width = 0
  · refine ⟨.error (.setup .zeroWidth), ?_, ?_⟩
    · rw [synthesizeWithin_of_noRoom hroom]
      rfl
    · rw [synthesizeWithin_of_noRoom (width.trans hroom)]
      rfl
  · have room : 1 ≤ config.width := Nat.one_le_iff_ne_zero.mpr hroom
    have hopening : opening other source = opening config source := by
      rw [opening, opening, width]
    -- Both runs are the one without the opening message, which comes before its messages.
    have hrun : ∀ title : SearchConfig, (opening config source).run (config.search phases).policy
        (watch config.roundLimit) rounds #[openingNote title] = _ := fun title =>
      run_notes (fun notes seen => watch_append config.roundLimit #[openingNote title] notes seen)
        rounds #[] (opening config source)
    rw [synthesizeWithin_eq room, synthesizeWithin_eq (room.trans width.ge), hopening, limit,
      ← same.policy, hrun config, hrun other]
    rcases (opening config source).run (config.search phases).policy (watch config.roundLimit)
      rounds #[] with reason | ⟨ending, notes, last⟩
    · exact ⟨.error (.breakdown reason), rfl, rfl⟩
    · obtain ⟨course, hcourse⟩ := settle_course ending notes last
      exact ⟨course, hcourse config _, hcourse other _⟩

end Sessions

/-- The case of the letters of a target does not matter. Two searches for the same letters
that begin alike find the same goals in every round, and are the same after it: the tree
with all registers, outputs and decisions, the frontier and its order, and the source of
numbers. Two syntheses with targets of the same letters give the same answer, an ending with
its program, output, score and rounds or the same failure; they end with the same search, and
have the same messages but for the one that quotes the target. -/
theorem case_does_not_matter {G : Type} [RandomSource G] :
    (∀ (one other : Target), SameSearch one other →
      ∀ (searcher : TargetSearcher G) (rounds : Nat),
        history one.policy rounds searcher = history other.policy rounds searcher) ∧
    ∀ (config : SearchConfig) (text : String),
      sameLetters config.target.toUTF8.toList text.toUTF8.toList = true →
      ∀ (source : G) (phases rounds : Nat),
        ∃ course : Except Failure (Ending × TargetSearcher G × Array Entry),
          synthesizeWithin phases rounds config source = course.map (titled config) ∧
          synthesizeWithin phases rounds { config with target := text } source =
            course.map (titled { config with target := text }) := by
  constructor
  · intro one other same searcher rounds
    rw [same.policy]
  · intro config text letters source phases rounds
    have same : SameSearch (config.search phases)
        (SearchConfig.search { config with target := text } phases) := ⟨letters, rfl, rfl⟩
    exact synthesizeWithin_titled same rfl rfl rounds source

/-- Searches for "Hi" and "hI" go through the same round, and keep the same three of its
eight children. A synthesis of one round stops with the same search for both. -/
theorem case_does_not_matter_of_hi :
    SameSearch ⟨[72, 105], true, 1⟩ ⟨[104, 73], true, 1⟩ ∧
    sameLetters "Hi".toUTF8.toList "hI".toUTF8.toList = true ∧
    ∃ session session' : Session Generator,
      history (Target.policy ⟨[72, 105], true, 1⟩) 1 session.searcher =
        history (Target.policy ⟨[104, 73], true, 1⟩) 1 session.searcher ∧
      synthesizeWithin 1 2 ⟨"Hi", 3, none, some 1, true⟩ (Generator.ofNumbers []) =
        .ok (.stopped 1, session) ∧
      synthesizeWithin 1 2 ⟨"hI", 3, none, some 1, true⟩ (Generator.ofNumbers []) =
        .ok (.stopped 1, session') ∧
      session.searcher = session'.searcher ∧ session.searcher.frontier = [2, 3, 4] := by
  let config : SearchConfig := ⟨"Hi", 3, none, some 1, true⟩
  let source := Generator.ofNumbers []
  have hsame : SameSearch ⟨[72, 105], true, 1⟩ ⟨[104, 73], true, 1⟩ := ⟨by decide, rfl, rfl⟩
  have hletters : sameLetters "Hi".toUTF8.toList "hI".toUTF8.toList = true := by cbv
  have hsearch : config.search 1 = ⟨[72, 105], true, 1⟩ := by cbv
  have hanswer : (synthesizeWithin 1 2 config source).toOption.map
      (fun answer => (answer.1, answer.2.searcher.frontier)) = some (.stopped 1, [2, 3, 4]) := by
    rw [synthesizeWithin_eq (by decide), hsearch]
    -- The text of the opening message has no part in the answer.
    generalize openingNote config = note
    cbv
  obtain ⟨course, hone, hother⟩ := case_does_not_matter.2 config "hI" hletters source 1 2
  rw [hone] at hanswer
  rcases course with reason | ⟨ending, searcher, notes⟩
  · cases hanswer
  · simp only [Except.map, titled, Except.toOption, Option.map_some, Option.some.injEq,
      Prod.mk.injEq] at hanswer
    obtain ⟨rfl, hfrontier⟩ := hanswer
    exact ⟨hsame, hletters, _, _, case_does_not_matter.1 _ _ hsame _ 1, hone, hother, rfl, hfrontier⟩

end TernarySynth.Proofs.LetterCase
