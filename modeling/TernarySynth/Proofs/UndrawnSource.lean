import TernarySynth.Proofs.SettledRun

/-!
# Rounds that draw no number

A round looks at its source of numbers only where its children do not all get a place.
So a search whose rounds have room for all of them leaves its source as it is, and with
another source, even one of another kind, it goes the same way: through the same trees
and frontiers to the same ending, with the same messages.
-/

namespace TernarySynth.Proofs.UndrawnSource

open RandomSource StateTree BeamSearch TargetSearch Synthesis LogLine
open RoundLedger RoundYield ExpansionEnd PhaseBounds RoundDepth SettledRun

variable {G H : Type} [RandomSource G] [RandomSource H]

section Searchers

variable {target : Target} {searcher next last : TargetSearcher G} {found : List NodeId}

/-- The same search with another source. -/
def withSource (other : H) (searcher : TargetSearcher G) : TargetSearcher H :=
  ⟨searcher.width, searcher.state, searcher.frontier, searcher.round, other⟩

/-- This round and all later ones have room for the children that they bring up, however
long they may run. -/
def Roomy (target : Target) (searcher : TargetSearcher G) : Prop :=
  ∀ later, Relation.ReflTransGen (Advances target) searcher later →
    ∀ phases, HasRoom (within target phases) later

/-- The next round has room. -/
theorem Roomy.hasRoom (h : Roomy target searcher) (phases : Nat) :
    HasRoom (within target phases) searcher := h searcher .refl phases

/-- After a round that finds nothing the others still have room. -/
theorem Roomy.advance {phases : Nat} (h : Roomy target searcher) (busy : searcher.frontier ≠ [])
    (ran : searcher.searchRound (within target phases).policy = .ok ([], next)) :
    Roomy target next :=
  fun later hreach => h later (.head ⟨busy, phases, ran⟩ hreach)

/-- A round that has room does the same with another source, and leaves it as it is. -/
theorem searchRound_withSource (room : HasRoom target searcher)
    (ok : searcher.searchRound target.policy = .ok (found, next)) (other : H) :
    (withSource other searcher).searchRound target.policy =
      .ok (found, withSource other next) := by
  obtain ⟨width, state, frontier, round, source⟩ := searcher
  rw [withSource, Searcher.searchRound]
  rw [Searcher.searchRound] at ok
  cases hharvest : target.policy.harvest frontier .empty state with
  | error reason =>
    rw [hharvest] at ok
    cases ok
  | ok result =>
    obtain ⟨harvest, grown⟩ := result
    have hfits : harvest.pool.toList.length ≤ width := room harvest grown hharvest
    rw [hharvest] at ok
    dsimp only at ok ⊢
    cases hscores : target.policy.scoreAll grown harvest.pool.toList #[] with
    | error reason =>
      rw [hscores] at ok
      cases ok
    | ok scored =>
      have hranked := (length_ranked hscores).trans_le hfits
      simp only [hscores, select_of_room hranked, Policy.releaseAll] at ok ⊢
      cases ok
      rfl

/-- So does a run whose rounds have room. -/
theorem run_withSource {phases rounds : Nat} {roundLimit : Option Nat}
    {notes notes' : Array Entry} {ending : RunEnd NodeId} (roomy : Roomy target searcher)
    (ok : searcher.run (within target phases).policy (watch roundLimit) rounds notes =
      .ok (ending, notes', last)) (other : H) :
    (withSource other searcher).run (within target phases).policy (watch roundLimit) rounds notes =
      .ok (ending, notes', withSource other last) := by
  rw [run_iff] at ok ⊢
  induction ok with
  | unfinished => exact .unfinished
  | exhausted dead => exact .exhausted dead
  | stopped busy stops => exact .stopped busy stops
  | quiet busy goesOn ran rest ih =>
    have hround := searchRound_withSource (roomy.hasRoom phases) ran other
    exact .quiet busy goesOn hround (ih (roomy.advance busy ran))
  | @found limit notes seen searcher next goal others state busy goesOn ran released =>
    have hround := searchRound_withSource (roomy.hasRoom phases) ran other
    have hend : Runs _ (watch roundLimit) (limit + 1) notes (withSource other searcher)
        (.found goal) seen { withSource other next with state := state } :=
      .found busy goesOn hround released
    exact hend

end Searchers

section Syntheses

variable {config : SearchConfig} {source : G} {ending : Ending} {session : Session G}

omit [RandomSource G] [RandomSource H] in
/-- A run with another source is settled in the same way. -/
theorem settle_withSource {runEnd : RunEnd NodeId} {notes : Array Entry} {last : TargetSearcher G}
    (h : settle config runEnd notes last = .ok (ending, session)) (other : H) :
    settle config runEnd notes (withSource other last) =
      .ok (ending, ⟨session.config, withSource other session.searcher, session.notes⟩) := by
  cases runEnd with
  | unfinished => cases h
  | exhausted =>
    cases h
    rfl
  | stopped =>
    cases h
    rfl
  | found goal =>
    have hround : (withSource other last).round = last.round := rfl
    have hstate : (withSource other last).state = last.state := rfl
    dsimp only [settle] at h ⊢
    rw [hround, hstate]
    rcases hsolution : solutionOf last.state goal (last.round - 1) with reason | solution
    · rw [hsolution] at h
      cases h
    · rw [hsolution] at h
      dsimp only at h ⊢
      rcases hrelease : outcome (release goal last.state) with reason | ⟨_, tree⟩
      · rw [hrelease] at h
        cases h
      · rw [hrelease] at h
        cases h
        rfl

/-- A synthesis whose rounds have room comes to the same ending with another source, in
the same session but for the source, which is as it was. -/
theorem comesTo_withSource (roomy : Roomy (config.search 0) (opening config source))
    (h : ComesTo config source ending session) (other : H) :
    ComesTo config other ending
      ⟨session.config, withSource other session.searcher, session.notes⟩ := by
  have room := h.room
  obtain ⟨phases, rounds, runEnd, notes, last, hrun, hsettle⟩ := (comesTo_iff room).mp h
  have hother := run_withSource roomy hrun other
  exact (comesTo_iff room).mpr
    ⟨phases, rounds, runEnd, notes, _, hother, settle_withSource hsettle other⟩

end Syntheses

end TernarySynth.Proofs.UndrawnSource
