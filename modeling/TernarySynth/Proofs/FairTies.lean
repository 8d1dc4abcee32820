import TernarySynth.Proofs.BestKept

/-!
# Ties are broken fairly

Of the nodes that are tied at the cutoff of a round, a shuffle settles which get the
places that are left. The shuffle makes one choice for every position but the first, and
a round keeps of the block what the choices bring to its front. For each set of survivors
there are as many vectors of choices that keep it as for any other, so the order in which
the nodes came up has no part in it.
-/

namespace TernarySynth.Proofs.FairTies

open RandomSource BeamSearch NodeConservation RankOrder BestKept
open scoped Nat

variable {α β σ ε N G : Type} {position : Nat}

section Choices

/-- The vectors of choices for the positions from `position` down to 1. The choice for a
position is at most the position. -/
def choiceVectors : Nat → Finset (List Nat)
  | 0 => {[]}
  | position + 1 =>
    (Finset.range (position + 2) ×ˢ choiceVectors position).image fun vector =>
      vector.1 :: vector.2

/-- The choice for the last position comes first. -/
theorem mem_choiceVectors_succ {choices : List Nat} :
    choices ∈ choiceVectors (position + 1) ↔
      ∃ choice ≤ position + 1, ∃ others ∈ choiceVectors position, choices = choice :: others := by
  simp only [choiceVectors, Finset.mem_image, Finset.mem_product, Finset.mem_range, Prod.exists]
  constructor
  · rintro ⟨choice, others, ⟨hlt, ho⟩, rfl⟩
    exact ⟨choice, Nat.le_of_lt_succ hlt, others, ho, rfl⟩
  · rintro ⟨choice, hle, others, ho, rfl⟩
    exact ⟨choice, others, ⟨Nat.lt_succ_of_le hle, ho⟩, rfl⟩

/-- Vectors are counted by their first choice. -/
theorem card_choiceVectors_succ (position : Nat) (p : List Nat → Prop) [DecidablePred p] :
    ((choiceVectors (position + 1)).filter p).card =
      ∑ choice ∈ Finset.range (position + 2),
        ((choiceVectors position).filter fun others => p (choice :: others)).card := by
  have hinj : Function.Injective fun vector : Nat × List Nat => vector.1 :: vector.2 := by
    rintro ⟨choice, others⟩ ⟨choice', others'⟩ h
    cases h
    rfl
  rw [choiceVectors, Finset.filter_image, Finset.card_image_of_injective _ hinj,
    Finset.card_filter, Finset.sum_product]
  exact Finset.sum_congr rfl fun choice _ => (Finset.card_filter _ _).symm

/-- There are as many vectors as arrangements. -/
theorem card_choiceVectors (position : Nat) : (choiceVectors position).card = (position + 1)! := by
  induction position with
  | zero => rfl
  | succ position ih =>
    have hsum := card_choiceVectors_succ position fun _ => True
    simp only [Finset.filter_true, ih, Finset.sum_const, Finset.card_range, smul_eq_mul] at hsum
    rw [hsum, Nat.factorial_succ (position + 1)]

end Choices

section Arranging

/-- An element behind the swapped ones stays where it is. -/
theorem swapIfInBounds_push (items : Array α) (last : α) {i j : Nat} (hi : i < items.size)
    (hj : j < items.size) :
    (items.push last).swapIfInBounds i j = (items.swapIfInBounds i j).push last := by
  have hi' : i < (items.push last).size := by rw [Array.size_push]; omega
  have hj' : j < (items.push last).size := by rw [Array.size_push]; omega
  rw [Array.swapIfInBounds_def, Array.swapIfInBounds_def, dif_pos hi, dif_pos hj, dif_pos hi',
    dif_pos hj']
  refine Array.ext (by simp) fun k hk _ => ?_
  grind

/-- Nor is it reached by the choices for positions in front of it. -/
theorem arrange_push {choices : List Nat} (hc : choices ∈ choiceVectors position)
    {items : Array α} (hp : position < items.size) (last : α) :
    arrange (items.push last) position choices = (arrange items position choices).push last := by
  induction position generalizing items choices with
  | zero =>
    cases Finset.mem_singleton.mp hc
    rfl
  | succ position ih =>
    obtain ⟨choice, hle, others, ho, rfl⟩ := mem_choiceVectors_succ.mp hc
    rw [arrange, arrange, swapIfInBounds_push items last hp (by omega)]
    refine ih ho ?_
    rw [Array.size_swapIfInBounds]
    exact Nat.lt_of_succ_lt hp

/-- The first choice brings an element to the end of the list; the other choices arrange
the others in front of it. -/
theorem arrangement_cons {items : List α} (hl : items.length = position + 2) {choice : Nat}
    (hle : choice ≤ position + 1) :
    ∃ others last, items[choice]? = some last ∧ (others ++ [last]).Perm items ∧
      ∀ choices ∈ choiceVectors position,
        arrangement (choice :: choices) items = arrangement choices others ++ [last] := by
  have hend : position + 1 < items.toArray.size := by rw [List.size_toArray]; omega
  have hchoice : choice < items.toArray.size := by rw [List.size_toArray]; omega
  have hswap : items.toArray.swapIfInBounds (position + 1) choice =
      items.toArray.swap (position + 1) choice hend hchoice := by
    rw [Array.swapIfInBounds_def, dif_pos hend, dif_pos hchoice]
  have hnonempty : (items.toArray.swap (position + 1) choice hend hchoice).size ≠ 0 := by
    rw [Array.size_swap]
    omega
  obtain ⟨others, last, hpush⟩ := Array.eq_push_of_size_ne_zero hnonempty
  have hsize : others.size = position + 1 := by
    have h := congrArg Array.size hpush
    rw [Array.size_swap, Array.size_push, List.size_toArray] at h
    omega
  have hlast : items[choice]? = some last := by
    have h : (items.toArray.swap (position + 1) choice hend hchoice)[position + 1]? =
        some items.toArray[choice] := by
      rw [Array.getElem?_eq_getElem (by rw [Array.size_swap]; exact hend), Array.getElem_swap_left]
    rw [hpush, ← hsize, Array.getElem?_push_size, List.getElem_toArray] at h
    rw [h]
    exact List.getElem?_eq_getElem _
  refine ⟨others.toList, last, hlast, ?_, fun choices hc => ?_⟩
  · rw [← Array.toList_push, ← hpush]
    exact (Array.swap_perm hend hchoice).toList
  · have hfirst : items.length - 1 = position + 1 := by omega
    have hrest : others.toList.length - 1 = position := by
      rw [Array.length_toList, hsize]
      rfl
    rw [arrangement, hfirst, arrange, hswap, hpush, Nat.add_sub_cancel, arrange_push hc (by omega),
      Array.toList_push, arrangement, hrest, Array.toArray_toList]

/-- Where elements are arranged does not depend on what they are. -/
theorem arrangement_map (f : α → β) (choices : List Nat) (items : List α) :
    arrangement choices (items.map f) = (arrangement choices items).map f := by
  rw [arrangement, arrangement, List.length_map, ← List.map_toArray, map_arrange,
    Array.toList_map]

end Arranging

section Counting

/-- The members of a block that get one of `places` places: those that the choices bring to
its front. -/
def survivors (places : Nat) (choices : List Nat) (block : List α) : List α :=
  (arrangement choices block).take places

/-- With fewer places than members the one that is brought to the end gets none, and the
others come before it as if it were not there. -/
theorem survivors_cons {block others : List α} {last : α} {choice places : Nat}
    {choices : List Nat} (few : places ≤ others.length)
    (h : arrangement (choice :: choices) block = arrangement choices others ++ [last]) :
    survivors places (choice :: choices) block = survivors places choices others := by
  have hlength : (arrangement choices others).length = others.length :=
    (arrangement_perm choices others).length_eq
  rw [survivors, h, List.take_append_of_le_length (few.trans hlength.ge)]
  rfl

/-- Who gets a place is a member. -/
theorem mem_of_mem_survivors {block : List α} {places : Nat} {choices : List Nat} {member : α}
    (h : member ∈ survivors places choices block) : member ∈ block :=
  (arrangement_perm choices block).mem_iff.mp (List.mem_of_mem_take h)

variable [DecidableEq α] {block : List α} {kept : Finset α}

/-- With places for all members all of them get one. -/
theorem survivors_of_room (choices : List Nat) :
    (survivors block.length choices block).toFinset = block.toFinset := by
  have hperm := arrangement_perm choices block
  rw [survivors, List.take_of_length_le hperm.length_eq.le]
  exact List.toFinset_eq_of_perm _ _ hperm

/-- A weight for each member outside of a set. -/
theorem sum_outside (nodup : block.Nodup) (inside : kept ⊆ block.toFinset) (weight : Nat) :
    ∑ choice : Fin block.length, (if block.get choice ∈ kept then 0 else weight) =
      (block.length - kept.card) * weight := by
  have hlist : ∑ choice : Fin block.length, (if block.get choice ∈ kept then 0 else weight) =
      ∑ member ∈ block.toFinset, if member ∈ kept then 0 else weight := by
    rw [List.sum_toFinset _ nodup]
    exact Fin.sum_univ_fun_getElem block fun member => if member ∈ kept then 0 else weight
  rw [hlist, Finset.sum_ite, Finset.sum_const_zero, zero_add, Finset.sum_const, smul_eq_mul,
    Finset.filter_notMem_eq_sdiff, Finset.card_sdiff_of_subset inside,
    List.toFinset_card_of_nodup nodup]

/-- By a first choice that brings a member of the set to the end, the set does not get the
places; by one that brings another member there, it does as often as among the others. -/
theorem card_survivors_cons (nodup : block.Nodup) (inside : kept ⊆ block.toFinset)
    (hl : block.length = position + 2) (few : kept.card ≤ position + 1)
    (ih : ∀ others : List α, others.length = position + 1 → others.Nodup →
      kept ⊆ others.toFinset → ((choiceVectors position).filter fun choices =>
        (survivors kept.card choices others).toFinset = kept).card =
          kept.card ! * (position + 1 - kept.card)!) (choice : Fin block.length) :
    ((choiceVectors position).filter fun choices =>
        (survivors kept.card (choice :: choices) block).toFinset = kept).card =
      if block.get choice ∈ kept then 0 else kept.card ! * (position + 1 - kept.card)! := by
  have hchoice : choice.val ≤ position + 1 := by omega
  obtain ⟨others, last, hlast, hperm, harrange⟩ := arrangement_cons hl hchoice
  have hget : block.get choice = last := (List.getElem?_eq_some_iff.mp hlast).2
  have hlength : others.length = position + 1 := by
    have h := hperm.length_eq
    rw [List.length_append, List.length_singleton] at h
    omega
  obtain ⟨hothers, -, hdisjoint⟩ := List.nodup_append.mp (hperm.nodup_iff.mpr nodup)
  have houtside : last ∉ others := fun hm => hdisjoint last hm last (List.mem_singleton_self _) rfl
  have hsame : ((choiceVectors position).filter fun choices =>
      (survivors kept.card (choice :: choices) block).toFinset = kept) =
        (choiceVectors position).filter fun choices =>
          (survivors kept.card choices others).toFinset = kept := by
    refine Finset.filter_congr fun choices hc => ?_
    rw [survivors_cons (few.trans hlength.ge) (harrange choices hc)]
  rw [hsame, hget]
  by_cases hm : last ∈ kept
  · rw [if_pos hm, Finset.card_eq_zero, Finset.filter_eq_empty_iff]
    intro choices _ hkept
    rw [← hkept, List.mem_toFinset] at hm
    exact houtside (mem_of_mem_survivors hm)
  · rw [if_neg hm]
    refine ih others hlength hothers fun member hin => ?_
    have hblock := hperm.mem_iff.mpr (List.mem_toFinset.mp (inside hin))
    rcases List.mem_append.mp hblock with ho | ho
    · exact List.mem_toFinset.mpr ho
    · cases List.mem_singleton.mp ho
      exact absurd hin hm

/-- A set of all members gets the places by every vector. -/
theorem card_survivors_of_room (nodup : block.Nodup) (inside : kept ⊆ block.toFinset)
    (hl : block.length = position + 1) (hall : kept.card = block.toFinset.card) :
    ((choiceVectors position).filter fun choices =>
        (survivors kept.card choices block).toFinset = kept).card =
      kept.card ! * (position + 1 - kept.card)! := by
  obtain rfl := Finset.eq_of_subset_of_card_le inside hall.ge
  have hcard : block.toFinset.card = block.length := List.toFinset_card_of_nodup nodup
  have htrue : ∀ choices ∈ choiceVectors position,
      (survivors block.toFinset.card choices block).toFinset = block.toFinset := by
    intro choices _
    rw [hcard]
    exact survivors_of_room choices
  rw [Finset.filter_true_of_mem htrue, card_choiceVectors, hcard, hl, Nat.sub_self,
    Nat.factorial_zero, Nat.mul_one]

/-- For every set of members there are equally many vectors of choices by which exactly
these get a place. -/
theorem card_survivors (nodup : block.Nodup) (inside : kept ⊆ block.toFinset)
    (hl : block.length = position + 1) :
    ((choiceVectors position).filter fun choices =>
        (survivors kept.card choices block).toFinset = kept).card =
      kept.card ! * (position + 1 - kept.card)! := by
  induction position generalizing block with
  | zero =>
    have hcard := List.toFinset_card_of_nodup nodup
    rcases (Finset.card_le_card inside).eq_or_lt with hall | hfew
    · exact card_survivors_of_room nodup inside hl hall
    · obtain rfl : kept = ∅ := Finset.card_eq_zero.mp (by omega)
      rfl
  | succ position ih =>
    have hcard := List.toFinset_card_of_nodup nodup
    rcases (Finset.card_le_card inside).eq_or_lt with hall | hfew
    · exact card_survivors_of_room nodup inside hl hall
    · have hfew' : kept.card ≤ position + 1 := by omega
      have hstep := card_survivors_cons nodup inside hl hfew' fun others hlength hothers hin =>
        ih hothers hin hlength
      have hfactorial : (position + 2 - kept.card)! =
          (position + 2 - kept.card) * (position + 1 - kept.card)! := by
        rw [Nat.succ_sub hfew', Nat.factorial_succ]
      rw [card_choiceVectors_succ, ← hl, Finset.sum_range,
        Finset.sum_congr rfl fun choice _ => hstep choice, sum_outside nodup inside, hl, hfactorial]
      exact Nat.mul_left_comm _ _ _

end Counting

section Drawing

variable [RandomSource G]

/-- The choices that a source makes for a list of that length. -/
def drawn (length : Nat) (source : G) : List Nat :=
  (drawChoices (length - 1) #[] source).1.toList

/-- The choice for the last position is drawn first. -/
theorem drawChoices_succ (position : Nat) (before : Array Nat) (source : G) :
    drawChoices (position + 1) before source =
      drawChoices position (before.push (RandomSource.below (position + 2) source).1)
        (RandomSource.below (position + 2) source).2 := by
  rw [drawChoices]

/-- The choices that are drawn make up a vector. -/
theorem drawChoices_mem (position : Nat) (before : Array Nat) (source : G) :
    ∃ choices ∈ choiceVectors position,
      (drawChoices position before source).1.toList = before.toList ++ choices := by
  induction position generalizing before source with
  | zero => exact ⟨[], Finset.mem_singleton_self _, (List.append_nil _).symm⟩
  | succ position ih =>
    have hlt := RandomSource.below_lt (position + 2) source (Nat.succ_pos (position + 1))
    rw [drawChoices_succ]
    generalize RandomSource.below (position + 2) source = first at hlt
    obtain ⟨choice, after⟩ := first
    obtain ⟨others, ho, hothers⟩ := ih (before.push choice) after
    refine ⟨choice :: others,
      mem_choiceVectors_succ.mpr ⟨choice, Nat.le_of_lt_succ hlt, others, ho, rfl⟩, ?_⟩
    rw [hothers, Array.toList_push, List.append_assoc]
    rfl

/-- So does what a source makes of a list. -/
theorem drawn_mem (length : Nat) (source : G) : drawn length source ∈ choiceVectors (length - 1) := by
  obtain ⟨choices, hc, hdrawn⟩ := drawChoices_mem (length - 1) #[] source
  rw [drawn, hdrawn]
  exact hc

/-- The number that makes a choice below a bound. -/
def numberFor (bound choice : Nat) : UInt32 :=
  UInt32.ofNat ((choice * wordRange + (bound - 1)) / bound)

/-- It is accepted at once and makes this choice, if the bound is a number of 32 bits. -/
theorem below_numberFor {bound choice : Nat} (hlt : choice < bound) (hle : bound ≤ wordRange)
    (numbers : List UInt32) (count : Nat) :
    RandomSource.below bound (Generator.mk (.given (numberFor bound choice :: numbers)) count) =
      (choice, ⟨.given numbers, count + 1⟩) := by
  have hrange : wordRange = 4294967296 := rfl
  have hpos : 0 < bound := by omega
  have hfit : (choice * wordRange + (bound - 1)) / bound < wordRange := by
    refine Nat.div_lt_of_lt_mul ?_
    have hmul : (choice + 1) * wordRange ≤ bound * wordRange := Nat.mul_le_mul_right _ hlt
    rw [Nat.succ_mul] at hmul
    omega
  have hnumber : (numberFor bound choice).toNat = (choice * wordRange + (bound - 1)) / bound := by
    rw [numberFor, UInt32.toNat_ofNat']
    exact Nat.mod_eq_of_lt hfit
  have hround := Nat.div_add_mod (choice * wordRange + (bound - 1)) bound
  have hrest := Nat.mod_lt (choice * wordRange + (bound - 1)) hpos
  have hproduct : ∃ rest < bound, (numberFor bound choice).toNat * bound =
      rest + choice * wordRange := by
    refine ⟨bound - 1 - (choice * wordRange + (bound - 1)) % bound, by omega, ?_⟩
    rw [hnumber, Nat.mul_comm]
    omega
  obtain ⟨rest, hsmall, hproduct⟩ := hproduct
  have hzone : rest ≤ acceptedZone bound := by
    have hshift : bound ≤ bound <<< (31 - bound.log2) := by
      rw [Nat.shiftLeft_eq]
      exact Nat.le_mul_of_pos_right _ (Nat.two_pow_pos _)
    unfold acceptedZone
    omega
  have hmod : (numberFor bound choice).toNat * bound % wordRange = rest := by
    rw [hproduct, Nat.add_mul_mod_self_right]
    exact Nat.mod_eq_of_lt (by omega)
  have hdiv : (numberFor bound choice).toNat * bound / wordRange = choice := by
    rw [hproduct, Nat.add_mul_div_right _ _ (by decide), Nat.div_eq_of_lt (by omega), Nat.zero_add]
  have hnext : Generator.next ⟨.given (numberFor bound choice :: numbers), count⟩ =
      (numberFor bound choice, ⟨.given numbers, count + 1⟩) := rfl
  rw [Generator.below_of_next hnext, hmod, hdiv, if_pos hzone]

/-- Every vector of choices is drawn from some numbers. -/
theorem exists_drawn {choices : List Nat} (hc : choices ∈ choiceVectors position)
    (hle : position < wordRange) :
    ∃ numbers : List UInt32, ∀ (before : Array Nat) (count : Nat),
      (drawChoices position before (Generator.mk (.given numbers) count)).1.toList =
        before.toList ++ choices := by
  induction position generalizing choices with
  | zero =>
    cases Finset.mem_singleton.mp hc
    exact ⟨[], fun before _ => (List.append_nil _).symm⟩
  | succ position ih =>
    obtain ⟨choice, hchoice, others, ho, rfl⟩ := mem_choiceVectors_succ.mp hc
    obtain ⟨numbers, hnumbers⟩ := ih ho (Nat.lt_of_succ_lt hle)
    refine ⟨numberFor (position + 2) choice :: numbers, fun before count => ?_⟩
    have hlt : choice < position + 2 := Nat.lt_succ_of_le hchoice
    have hfirst := below_numberFor hlt hle numbers count
    rw [drawChoices_succ, hfirst, hnumbers, Array.toList_push, List.append_assoc]
    rfl

/-- A shuffle arranges a list by the choices that are drawn for it. -/
theorem shuffle_fst (items : List α) (source : G) :
    (shuffle items source).1 = arrangement (drawn items.length source) items := by
  rw [shuffle, drawn]

end Drawing

section Rounds

variable {rank : N → Int} {pool : List N} {cutoff : Int}

/-- The places in a pool of the nodes that are tied at the cutoff, in order. -/
def tiedPlaces (rank : N → Int) (cutoff : Int) (pool : List N) : List (Fin pool.length) :=
  (List.finRange pool.length).filter fun place => rank (pool.get place) = cutoff

/-- Each place is there once. -/
theorem nodup_tiedPlaces (rank : N → Int) (cutoff : Int) (pool : List N) :
    (tiedPlaces rank cutoff pool).Nodup :=
  (List.nodup_finRange _).filter _

/-- The tied nodes are in these places. -/
theorem map_tiedPlaces (rank : N → Int) (cutoff : Int) (pool : List N) :
    (tiedPlaces rank cutoff pool).map pool.get = tied rank cutoff pool := by
  have hfilter := List.filter_map (f := pool.get) (p := fun node => decide (rank node = cutoff))
    (l := List.finRange pool.length)
  rw [List.map_get_finRange] at hfilter
  exact hfilter.symm

/-- So there are as many of them. -/
theorem length_tiedPlaces (rank : N → Int) (cutoff : Int) (pool : List N) :
    (tiedPlaces rank cutoff pool).length = (pool.map rank).count cutoff := by
  rw [← length_tied, ← map_tiedPlaces, List.length_map]

variable [RandomSource G] {policy : Policy σ ε N} {state middle : σ} {width : Nat}
variable {frontier goals : List N}

/-- The tied nodes that a crowded round keeps are those in the surviving places. -/
theorem tied_kept (brings : BringsUp policy state frontier pool goals middle)
    (scores : ∀ node ∈ pool, policy.score middle node = .ok (rank node))
    (crowd : width < pool.length) (last : LastPlace width (pool.map rank) cutoff) {round : Nat}
    {source : G} {found : List N} {next : Searcher σ N G}
    (ran : (Searcher.mk width state frontier round source).searchRound policy = .ok (found, next)) :
    tied rank cutoff next.frontier =
      (survivors (width - (pool.map rank).countP fun score => cutoff < score)
        (drawn ((pool.map rank).count cutoff) source) (tiedPlaces rank cutoff pool)).map
          pool.get := by
  have room : 1 ≤ width := by
    have hfew := last.few
    omega
  have hselect := select_of_crowd (stablyRanked_mergeSort rank pool) room crowd last source
  rw [searchRound_eq brings scores, hselect] at ran
  dsimp only at ran
  rw [shuffle_fst, length_tied, ← map_tiedPlaces, arrangement_map] at ran
  cases hrelease : policy.releaseAll _ middle with
  | error reason =>
    rw [hrelease] at ran
    cases ran
  | ok after =>
    rw [hrelease] at ran
    cases ran
    have hbetter : tied rank cutoff (better rank cutoff (pool.mergeSort fun x y =>
        decide (rank y ≤ rank x))) = [] := by
      refine List.filter_eq_nil_iff.mpr fun node hm => ?_
      rw [decide_eq_true_iff]
      exact (lt_of_mem_better hm).ne'
    rw [tied, List.filter_append, ← tied, hbetter, List.nil_append, ← List.map_take]
    refine List.filter_eq_self.mpr fun node hm => ?_
    obtain ⟨place, hp, rfl⟩ := List.mem_map.mp hm
    exact (List.mem_filter.mp (mem_of_mem_survivors hp)).2

/-- The order in which nodes come up never decides which of them survive a tie. Of the
members of the block at the cutoff, a round keeps those in the places that survive the
choices drawn from its source, and every vector of choices may be drawn. For every set of as
many places of the block as are left behind the better nodes, the vectors by which exactly
this set survives are equally many, `k ! * (n - k)!` of the `n !` vectors. -/
theorem ties_broken_alike (brings : BringsUp policy state frontier pool goals middle)
    (scores : ∀ node ∈ pool, policy.score middle node = .ok (rank node))
    (crowd : width < pool.length) (last : LastPlace width (pool.map rank) cutoff) :
    let n := (pool.map rank).count cutoff
    let k := width - (pool.map rank).countP fun score => cutoff < score
    let block := tiedPlaces rank cutoff pool
    (1 ≤ k ∧ k ≤ n ∧ block.length = n ∧ (choiceVectors (n - 1)).card = n !) ∧
      (∀ (G : Type) [RandomSource G] (source : G) (round : Nat),
        (Steady policy → ∃ found next, (Searcher.mk width state frontier round source).searchRound
          policy = .ok (found, next)) ∧
        ∀ found next, (Searcher.mk width state frontier round source).searchRound policy =
            .ok (found, next) →
          drawn n source ∈ choiceVectors (n - 1) ∧
            tied rank cutoff next.frontier =
              (survivors k (drawn n source) block).map pool.get) ∧
      (n ≤ wordRange → ∀ choices ∈ choiceVectors (n - 1),
        ∃ numbers, drawn n (Generator.ofNumbers numbers) = choices) ∧
      ∀ kept ⊆ block.toFinset, kept.card = k →
        ((choiceVectors (n - 1)).filter fun choices =>
          (survivors k choices block).toFinset = kept).card = k ! * (n - k)! := by
  intro n k block
  have hfew := last.few
  have henough := last.enough
  rw [countP_le] at henough
  have hplaces : 1 ≤ k ∧ k ≤ n := ⟨Nat.sub_pos_of_lt hfew, by omega⟩
  have hlength : block.length = n := length_tiedPlaces rank cutoff pool
  have hposition : n - 1 + 1 = n := Nat.sub_add_cancel (hplaces.1.trans hplaces.2)
  refine ⟨⟨hplaces.1, hplaces.2, hlength, by rw [card_choiceVectors, hposition]⟩,
    fun H _ source round => ⟨fun steady => steady.searchRound _, fun found next ran =>
      ⟨drawn_mem n source, tied_kept brings scores crowd last ran⟩⟩,
    fun hrange choices hc => ?_, fun kept inside hcard => ?_⟩
  · obtain ⟨numbers, hnumbers⟩ := exists_drawn hc (by omega)
    exact ⟨numbers, hnumbers #[] 0⟩
  · have hcount := card_survivors (nodup_tiedPlaces rank cutoff pool) inside
      (hlength.trans hposition.symm)
    rwa [hcard, hposition] at hcount

/-- Of the four nodes of the fan that are tied for two places, each pair survives by four of
the 24 vectors of choices. -/
theorem ties_broken_alike_of_fan :
    let rank : Nat → Int := fun node => [0, 1, 5, 3, 3, 1, 3, 5, 3].getD node 0
    BringsUp fanOut [] [0] [1, 2, 3, 4, 5, 6, 7, 8] [] [0] ∧
      (∀ node ∈ [1, 2, 3, 4, 5, 6, 7, 8], fanOut.score [0] node = .ok (rank node)) ∧
      4 < [1, 2, 3, 4, 5, 6, 7, 8].length ∧ LastPlace 4 ([1, 2, 3, 4, 5, 6, 7, 8].map rank) 3 ∧
      tiedPlaces rank 3 [1, 2, 3, 4, 5, 6, 7, 8] = [2, 3, 5, 7] ∧
      (choiceVectors 3).card = 24 ∧
      ((choiceVectors 3).filter fun choices =>
        (survivors 2 choices [2, 3, 5, 7]).toFinset = ({3, 7} : Finset (Fin 8))).card = 4 := by
  intro rank
  have brings : BringsUp fanOut [] [0] ([1, 2, 3, 4, 5, 6, 7, 8] ++ []) [] [0] :=
    .children rfl rfl .done
  rw [List.append_nil] at brings
  have scores : ∀ node ∈ [1, 2, 3, 4, 5, 6, 7, 8], fanOut.score [0] node = .ok (rank node) :=
    fun _ _ => rfl
  have crowd : 4 < [1, 2, 3, 4, 5, 6, 7, 8].length := by decide
  have last : LastPlace 4 ([1, 2, 3, 4, 5, 6, 7, 8].map rank) 3 := ⟨by decide, by decide⟩
  have block : tiedPlaces rank 3 [1, 2, 3, 4, 5, 6, 7, 8] = [2, 3, 5, 7] := by decide
  obtain ⟨⟨-, -, -, hall⟩, -, -, hcount⟩ := ties_broken_alike brings scores crowd last
  refine ⟨brings, scores, crowd, last, block, hall, ?_⟩
  rw [block] at hcount
  exact hcount {3, 7} (by decide) (by decide)

end Rounds

end TernarySynth.Proofs.FairTies
