import Mathlib
import TernarySynth.BeamSearch

/-!
# Scores count by their order only

Nothing in a round depends on how far two scores are apart. So when the scores of all
children of a round are changed by one and the same strictly increasing function, the
round keeps the same children in the same order, and draws as many random numbers.
-/

namespace TernarySynth.Proofs.RankOrder

open RandomSource BeamSearch

variable {α β σ ε N G : Type} [RandomSource G] {f : Int → Int}

section Shuffling

omit [RandomSource G] in
/-- Where elements are swapped does not depend on what they are. -/
theorem map_swapIfInBounds (g : α → β) (items : Array α) (i j : Nat) :
    (items.map g).swapIfInBounds i j = (items.swapIfInBounds i j).map g := by
  have hsize : (items.map g).size = items.size := Array.size_map
  rw [Array.swapIfInBounds_def, Array.swapIfInBounds_def]
  by_cases hi : i < items.size
  · by_cases hj : j < items.size
    · rw [dif_pos (hsize.symm ▸ hi), dif_pos (hsize.symm ▸ hj), dif_pos hi, dif_pos hj]
      refine Array.ext (by simp only [Array.size_swap, Array.size_map]) fun k hk hk' => ?_
      simp only [Array.getElem_swap, Array.getElem_map]
      split
      · rfl
      · split <;> rfl
    · rw [dif_pos (hsize.symm ▸ hi), dif_neg (hsize.symm ▸ hj), dif_pos hi, dif_neg hj]
  · rw [dif_neg (hsize.symm ▸ hi), dif_neg hi]

omit [RandomSource G] in
/-- Nor does an arrangement. -/
theorem map_arrange (g : α → β) (choices : List Nat) (items : Array α) (position : Nat) :
    arrange (items.map g) position choices = (arrange items position choices).map g := by
  induction choices generalizing items position with
  | nil => rfl
  | cons choice choices ih => rw [arrange, arrange, map_swapIfInBounds, ih]

/-- Nor does a shuffle, which draws as many numbers. -/
theorem shuffle_map (g : α → β) (items : List α) (source : G) :
    shuffle (items.map g) source = ((shuffle items source).1.map g, (shuffle items source).2) := by
  unfold shuffle arrangement
  rw [List.length_map, ← List.map_toArray]
  simp only [map_arrange, Array.toList_map]

end Shuffling

/-- Change the scores of scored nodes. -/
def rescore (f : Int → Int) (scored : List (Int × N)) : List (Int × N) :=
  scored.map fun x => (f x.1, x.2)

/-- The nodes themselves stay. -/
theorem map_snd_rescore (f : Int → Int) (scored : List (Int × N)) :
    (rescore f scored).map Prod.snd = scored.map Prod.snd := by
  unfold rescore
  rw [List.map_map]
  rfl

/-- So do their places. -/
theorem take_rescore (f : Int → Int) (scored : List (Int × N)) (n : Nat) :
    (rescore f scored).take n = rescore f (scored.take n) := List.map_take.symm

/-- Those of the others too. -/
theorem drop_rescore (f : Int → Int) (scored : List (Int × N)) (n : Nat) :
    (rescore f scored).drop n = rescore f (scored.drop n) := List.map_drop.symm

/-- Sorting sees the order of the scores only. -/
theorem rankByScore_rescore (hf : StrictMono f) (scored : List (Int × N)) :
    rankByScore (rescore f scored) = rescore f (rankByScore scored) := by
  refine (List.map_mergeSort fun x _ y _ => ?_).symm
  exact decide_eq_decide.mpr hf.le_iff_le.symm

/-- So does the shuffle of a block of ties. -/
theorem shuffleTies_rescore (hf : StrictMono f) (cutoff : Int) (ranked : List (Int × N))
    (source : G) : shuffleTies (f cutoff) (rescore f ranked) source =
      (rescore f (shuffleTies cutoff ranked source).1, (shuffleTies cutoff ranked source).2) := by
  have hlt : (fun x : Int × N => decide (f cutoff < x.1)) ∘ (fun x : Int × N => (f x.1, x.2)) =
      fun x => decide (cutoff < x.1) :=
    funext fun x => decide_eq_decide.mpr hf.lt_iff_lt
  have hle : (fun x : Int × N => decide (f cutoff ≤ x.1)) ∘ (fun x : Int × N => (f x.1, x.2)) =
      fun x => decide (cutoff ≤ x.1) :=
    funext fun x => decide_eq_decide.mpr hf.le_iff_le
  unfold shuffleTies rescore
  simp only [List.takeWhile_map, List.dropWhile_map, hlt, hle, shuffle_map, List.map_append]

/-- The places are given out to the same nodes in the same order. -/
theorem select_rescore (hf : StrictMono f) (width : Nat) (ranked : List (Int × N)) (source : G) :
    select width (rescore f ranked) source = select width ranked source := by
  have hlast : (rescore f ranked)[width - 1]? =
      ranked[width - 1]?.map fun x => (f x.1, x.2) := List.getElem?_map
  unfold select
  rw [drop_rescore, hlast, map_snd_rescore]
  cases ranked.drop width with
  | nil => rfl
  | cons first rest =>
    cases ranked[width - 1]? with
    | none => rfl
    | some last =>
      simp only [rescore, List.map_cons, Option.map_some]
      rw [← rescore, shuffleTies_rescore hf]
      simp only [take_rescore, drop_rescore, map_snd_rescore]

section Rounds

variable {policy : Policy σ ε N} {score : σ → N → Except ε Int}

/-- The policy with other scores. -/
def scoredBy (policy : Policy σ ε N) (score : σ → N → Except ε Int) : Policy σ ε N :=
  ⟨policy.expand, score, policy.release⟩

/-- It expands nodes as before. -/
@[simp] theorem scoredBy_expand : (scoredBy policy score).expand = policy.expand := rfl

/-- It scores by the other scores. -/
@[simp] theorem scoredBy_score : (scoredBy policy score).score = score := rfl

/-- It releases nodes as before. -/
@[simp] theorem scoredBy_release : (scoredBy policy score).release = policy.release := rfl

/-- Other scores do not change what a harvest brings up. -/
theorem harvest_scoredBy (nodes : List N) (found : Harvest N) (state : σ) :
    (scoredBy policy score).harvest nodes found state = policy.harvest nodes found state := by
  induction nodes generalizing found state with
  | nil => rfl
  | cons node nodes ih => simp only [Policy.harvest, scoredBy_expand, scoredBy_release, ih]

/-- Nor what is released. -/
theorem releaseAll_scoredBy (nodes : List N) (state : σ) :
    (scoredBy policy score).releaseAll nodes state = policy.releaseAll nodes state := by
  induction nodes generalizing state with
  | nil => rfl
  | cons node nodes ih => simp only [Policy.releaseAll, scoredBy_release, ih]

/-- Nodes whose scores are changed come with the changed scores. -/
theorem scoreAll_scoredBy {state : σ} {nodes : List N}
    (hscore : ∀ node ∈ nodes, policy.score state node = (score state node).map f)
    (scored before : Array (Int × N))
    (hbefore : scored.toList = rescore f before.toList) :
    (policy.scoreAll state nodes scored).map Array.toList =
      ((scoredBy policy score).scoreAll state nodes before).map fun scored =>
        rescore f scored.toList := by
  induction nodes generalizing scored before with
  | nil => exact congrArg Except.ok hbefore
  | cons node nodes ih =>
    rw [Policy.scoreAll, Policy.scoreAll, hscore node List.mem_cons_self, scoredBy_score]
    cases score state node with
    | error reason => rfl
    | ok points =>
      refine ih (fun node hm => hscore node (List.mem_cons_of_mem _ hm)) _ _ ?_
      simp only [Array.toList_push, hbefore, rescore, List.map_append, List.map_cons, List.map_nil]

/-- A round whose children have scores that are changed by a strictly increasing
function is the same round. -/
theorem searchRound_scoredBy {searcher : Searcher σ N G} (hf : StrictMono f)
    (hscore : ∀ found state,
      policy.harvest searcher.frontier .empty searcher.state = .ok (found, state) →
        ∀ node ∈ found.pool.toList, policy.score state node = (score state node).map f) :
    searcher.searchRound (scoredBy policy score) = searcher.searchRound policy := by
  obtain ⟨width, state, frontier, round, source⟩ := searcher
  rw [Searcher.searchRound, Searcher.searchRound, harvest_scoredBy]
  cases hharvest : policy.harvest frontier .empty state with
  | error reason => rfl
  | ok answer =>
    obtain ⟨found, state⟩ := answer
    have hall := scoreAll_scoredBy (hscore found state hharvest) #[] #[] rfl
    dsimp only
    cases hnew : (scoredBy policy score).scoreAll state found.pool.toList #[] with
    | error reason =>
      rw [hnew] at hall
      cases hold : policy.scoreAll state found.pool.toList #[] with
      | error cause =>
        rw [hold] at hall
        cases hall
        rfl
      | ok scored =>
        rw [hold] at hall
        cases hall
    | ok scored =>
      rw [hnew] at hall
      cases hold : policy.scoreAll state found.pool.toList #[] with
      | error cause =>
        rw [hold] at hall
        cases hall
      | ok scored' =>
        rw [hold] at hall
        have hranked : scored'.toList = rescore f scored.toList := Except.ok.inj hall
        dsimp only
        rw [hranked, rankByScore_rescore hf, select_rescore hf, releaseAll_scoredBy]

end Rounds

end TernarySynth.Proofs.RankOrder
