import TernarySynth.Proofs.NodeConservation
import TernarySynth.Proofs.RankOrder

/-!
# A round keeps the best

The pool of a round is what its expansions bring up, in order. A round ranks the pool
by score and gives its places to the best. Where there are more nodes than places, the
score in the last place is the cutoff: all nodes above it are kept, all below it are
dropped, and of the nodes at the cutoff a shuffle settles which are kept. So whatever
numbers the source gives, no dropped node is better than a kept one.
-/

namespace TernarySynth.Proofs.BestKept

open RandomSource BeamSearch RoundLedger NodeConservation RankOrder

variable {σ ε N G : Type} {rank : N → Int} {pool sorted : List N} {width : Nat} {cutoff : Int}

section Ranking

/-- A pool in falling order of ranks, in which nodes of the same rank stand as they do in
the pool. -/
structure StablyRanked (rank : N → Int) (pool sorted : List N) : Prop where
  /-- The nodes are those of the pool. -/
  perm : sorted.Perm pool
  /-- No node stands behind a worse one. -/
  falling : sorted.Pairwise fun x y => rank y ≤ rank x
  /-- Nodes of the same rank keep their order. -/
  stable : ∀ points, sorted.filter (fun node => rank node = points) =
    pool.filter (fun node => rank node = points)

/-- Sorting by rank does this. -/
theorem stablyRanked_mergeSort (rank : N → Int) (pool : List N) :
    StablyRanked rank pool (pool.mergeSort fun x y => decide (rank y ≤ rank x)) := by
  have htrans : ∀ a b c : N, decide (rank b ≤ rank a) = true → decide (rank c ≤ rank b) = true →
      decide (rank c ≤ rank a) = true := by
    intro a b c hab hbc
    exact decide_eq_true ((of_decide_eq_true hbc).trans (of_decide_eq_true hab))
  have htotal : ∀ a b : N, (decide (rank b ≤ rank a) || decide (rank a ≤ rank b)) = true := by
    intro a b
    rcases le_total (rank b) (rank a) with h | h <;> simp [h]
  have hperm := List.mergeSort_perm pool fun x y => decide (rank y ≤ rank x)
  refine ⟨hperm, (List.pairwise_mergeSort htrans htotal pool).imp of_decide_eq_true,
    fun points => ?_⟩
  -- Nodes of one rank are in order already, so they are a part of the sorted list.
  have hlevel : (pool.filter fun node => rank node = points).Pairwise
      fun x y => decide (rank y ≤ rank x) = true := by
    refine List.pairwise_of_forall_mem_list fun x hx y hy => decide_eq_true ?_
    have hx' := of_decide_eq_true (List.mem_filter.mp hx).2
    have hy' := of_decide_eq_true (List.mem_filter.mp hy).2
    exact (hy'.trans hx'.symm).le
  have hsub := (List.sublist_mergeSort htrans htotal hlevel List.filter_sublist).filter
    fun node => rank node = points
  rw [List.filter_filter] at hsub
  simp only [Bool.and_self] at hsub
  exact (hsub.eq_of_length (hperm.filter _).length_eq.symm).symm

/-- Two lists with the same levels have the same nodes. -/
theorem mem_of_levels {xs ys : List N}
    (h : ∀ points, xs.filter (fun node => rank node = points) =
      ys.filter (fun node => rank node = points)) {node : N} (hm : node ∈ xs) : node ∈ ys := by
  have hin : node ∈ xs.filter fun other => rank other = rank node :=
    List.mem_filter.mpr ⟨hm, decide_eq_true rfl⟩
  rw [h] at hin
  exact (List.mem_filter.mp hin).1

/-- A list in falling order is made up of its levels. -/
theorem eq_of_levels {xs ys : List N} (hx : xs.Pairwise fun x y => rank y ≤ rank x)
    (hy : ys.Pairwise fun x y => rank y ≤ rank x)
    (h : ∀ points, xs.filter (fun node => rank node = points) =
      ys.filter (fun node => rank node = points)) : xs = ys := by
  induction xs generalizing ys with
  | nil =>
    cases ys with
    | nil => rfl
    | cons y ys => cases mem_of_levels (fun points => (h points).symm) List.mem_cons_self
  | cons x xs ih =>
    cases ys with
    | nil => cases mem_of_levels h List.mem_cons_self
    | cons y ys =>
      obtain ⟨hfirst, hxs⟩ := List.pairwise_cons.mp hx
      obtain ⟨hfirst', hys⟩ := List.pairwise_cons.mp hy
      have hle : rank y ≤ rank x := by
        rcases List.mem_cons.mp (mem_of_levels (fun points => (h points).symm) List.mem_cons_self)
          with rfl | hm
        · exact le_rfl
        · exact hfirst y hm
      have hge : rank x ≤ rank y := by
        rcases List.mem_cons.mp (mem_of_levels h List.mem_cons_self) with rfl | hm
        · exact le_rfl
        · exact hfirst' x hm
      -- Both lists begin with the first node of their highest level.
      have hsame := h (rank x)
      rw [List.filter_cons_of_pos (p := fun node => decide (rank node = rank x)) (decide_eq_true rfl),
        List.filter_cons_of_pos (p := fun node => decide (rank node = rank x))
          (decide_eq_true (le_antisymm hle hge))] at hsame
      obtain ⟨rfl, -⟩ := List.cons.inj hsame
      refine congrArg _ (ih hxs hys fun points => ?_)
      have hpoints := h points
      rw [List.filter_cons, List.filter_cons] at hpoints
      split at hpoints
      · exact (List.cons.inj hpoints).2
      · exact hpoints

/-- A pool can be ranked in one way only. -/
theorem StablyRanked.unique {other : List N} (h : StablyRanked rank pool sorted)
    (h' : StablyRanked rank pool other) : sorted = other :=
  eq_of_levels h.falling h'.falling fun points => (h.stable points).trans (h'.stable points).symm

end Ranking

section Cutting

/-- The score in the last of `width` places: fewer scores are better, but that many are
at least as good. -/
structure LastPlace (width : Nat) (scores : List Int) (cutoff : Int) : Prop where
  /-- The better ones do not fill the places. -/
  few : scores.countP (fun score => cutoff < score) < width
  /-- With those that are as good they do. -/
  enough : width ≤ scores.countP fun score => cutoff ≤ score

/-- There is one such score at most. -/
theorem LastPlace.unique {scores : List Int} {cutoff' : Int} (h : LastPlace width scores cutoff)
    (h' : LastPlace width scores cutoff') : cutoff = cutoff' := by
  have hle : ∀ {low high : Int}, LastPlace width scores low → LastPlace width scores high →
      high ≤ low := by
    intro low high hlow hhigh
    by_contra hlt
    have hsub : scores.countP (fun score => high ≤ score) ≤
        scores.countP fun score => low < score := by
      refine List.countP_mono_left fun score _ hs => decide_eq_true ?_
      exact (not_le.mp hlt).trans_le (of_decide_eq_true hs)
    exact absurd hlow.few (Nat.not_lt.mpr (hhigh.enough.trans hsub))
  exact le_antisymm (hle h' h) (hle h h')

/-- It does not depend on the order of the scores. -/
theorem LastPlace.of_perm {scores scores' : List Int} (h : LastPlace width scores cutoff)
    (hp : scores.Perm scores') : LastPlace width scores' cutoff :=
  ⟨hp.countP_eq _ ▸ h.few, hp.countP_eq _ ▸ h.enough⟩

/-- In falling order it is found in its place. -/
theorem lastPlace_of_getElem? (hf : sorted.Pairwise fun x y => rank y ≤ rank x) {i : Nat} {node : N}
    (hn : sorted[i]? = some node) : LastPlace (i + 1) (sorted.map rank) (rank node) := by
  obtain ⟨hi, hget⟩ := List.getElem?_eq_some_iff.mp hn
  have hsplit : sorted = sorted.take i ++ node :: sorted.drop (i + 1) := by
    rw [← hget, ← List.drop_eq_getElem_cons hi, List.take_append_drop]
  have hlength : (sorted.take i).length = i := List.length_take_of_le hi.le
  rw [hsplit] at hf
  obtain ⟨-, htail, hcross⟩ := List.pairwise_append.mp hf
  obtain ⟨hafter, -⟩ := List.pairwise_cons.mp htail
  rw [hsplit, List.map_append, List.map_cons]
  constructor
  · have hnone : (rank node :: (sorted.drop (i + 1)).map rank).countP
        (fun score => rank node < score) = 0 := by
      rw [List.countP_eq_zero]
      intro score hs
      rw [decide_eq_true_iff, not_lt]
      rcases List.mem_cons.mp hs with rfl | hs
      · exact le_rfl
      · obtain ⟨other, ho, rfl⟩ := List.mem_map.mp hs
        exact hafter other ho
    have hle := List.countP_le_length (p := fun score : Int => decide (rank node < score))
      (l := (sorted.take i).map rank)
    rw [List.length_map, hlength] at hle
    rw [List.countP_append, hnone]
    omega
  · have hall : ((sorted.take i).map rank).countP (fun score => rank node ≤ score) = i := by
      rw [List.countP_eq_length.mpr, List.length_map, hlength]
      intro score hs
      obtain ⟨other, ho, rfl⟩ := List.mem_map.mp hs
      exact decide_eq_true (hcross other ho node List.mem_cons_self)
    rw [List.countP_append, hall, List.countP_cons, if_pos (decide_eq_true le_rfl)]
    omega

/-- As long as there are enough nodes there is such a score. -/
theorem StablyRanked.exists_lastPlace (h : StablyRanked rank pool sorted) (room : 1 ≤ width)
    (enough : width ≤ pool.length) :
    ∃ node, sorted[width - 1]? = some node ∧ LastPlace width (pool.map rank) (rank node) := by
  have hlt : width - 1 < sorted.length := by
    rw [h.perm.length_eq]
    omega
  have hnode := List.getElem?_eq_getElem hlt
  have hlast := (lastPlace_of_getElem? h.falling hnode).of_perm (h.perm.map rank)
  rw [Nat.sub_add_cancel room] at hlast
  exact ⟨_, hnode, hlast⟩

/-- Where a property holds up to some place of a list, it cuts the list in two. -/
theorem span_of_downward {p : N → Bool} {nodes : List N}
    (h : nodes.Pairwise fun x y => p y = true → p x = true) :
    nodes.takeWhile p = nodes.filter p ∧ nodes.dropWhile p = nodes.filter fun node => !p node := by
  induction nodes with
  | nil => exact ⟨rfl, rfl⟩
  | cons node nodes ih =>
    obtain ⟨hfirst, hrest⟩ := List.pairwise_cons.mp h
    obtain ⟨htake, hdrop⟩ := ih hrest
    by_cases hp : p node = true
    · rw [List.takeWhile_cons_of_pos hp, List.dropWhile_cons_of_pos hp, htake, hdrop,
        List.filter_cons_of_pos hp, List.filter_cons_of_neg (by simp [hp])]
      exact ⟨rfl, rfl⟩
    · have hnone : ∀ other ∈ nodes, ¬p other = true := fun other hm ho => hp (hfirst other hm ho)
      have hall : ∀ other ∈ nodes, (!p other) = true := fun other hm => by simp [hnone other hm]
      rw [List.takeWhile_cons_of_neg hp, List.dropWhile_cons_of_neg hp,
        List.filter_cons_of_neg hp, List.filter_cons_of_pos (by simp [hp]),
        List.filter_eq_nil_iff.mpr hnone, List.filter_eq_self.mpr hall]
      exact ⟨rfl, rfl⟩

/-- The nodes of a ranked pool that are better than the cutoff. -/
def better (rank : N → Int) (cutoff : Int) (sorted : List N) : List N :=
  sorted.filter fun node => cutoff < rank node

/-- The nodes of a pool that are tied at the cutoff. -/
def tied (rank : N → Int) (cutoff : Int) (pool : List N) : List N :=
  pool.filter fun node => rank node = cutoff

/-- The nodes of a ranked pool that are worse than the cutoff. -/
def worse (rank : N → Int) (cutoff : Int) (sorted : List N) : List N :=
  sorted.filter fun node => rank node < cutoff

/-- A node with its rank. -/
def scored (rank : N → Int) (node : N) : Int × N := (rank node, node)

/-- The nodes behind their ranks. -/
theorem map_snd_scored (rank : N → Int) (nodes : List N) :
    (nodes.map (scored rank)).map Prod.snd = nodes := by
  rw [List.map_map]
  exact List.map_id nodes

/-- Better nodes are above the cutoff. -/
theorem lt_of_mem_better {nodes : List N} {node : N} (hm : node ∈ better rank cutoff nodes) :
    cutoff < rank node :=
  of_decide_eq_true (List.mem_filter.mp hm).2

/-- Those that are not better are the tied and the worse ones. -/
theorem filter_others (rank : N → Int) (cutoff : Int) (nodes : List N) :
    let others := nodes.filter fun node => !decide (cutoff < rank node)
    others.filter (fun node => decide (cutoff ≤ rank node)) = tied rank cutoff nodes ∧
      others.filter (fun node => !decide (cutoff ≤ rank node)) = worse rank cutoff nodes := by
  intro others
  have hfilter : ∀ p q : N → Bool,
      (∀ node, p node = true ∧ ¬ cutoff < rank node ↔ q node = true) →
        others.filter p = nodes.filter q := by
    intro p q h
    rw [List.filter_filter]
    refine List.filter_congr fun node _ => ?_
    rw [Bool.eq_iff_iff, Bool.and_eq_true, Bool.not_eq_true', decide_eq_false_iff_not, h node]
  refine ⟨hfilter _ _ fun node => ?_, hfilter _ _ fun node => ?_⟩
  · rw [decide_eq_true_iff, decide_eq_true_iff]
    omega
  · rw [Bool.not_eq_true', decide_eq_false_iff_not, decide_eq_true_iff]
    omega

/-- The better nodes of a pool, in any order. -/
theorem length_better (h : StablyRanked rank pool sorted) (cutoff : Int) :
    (better rank cutoff sorted).length =
      (pool.map rank).countP fun score => cutoff < score := by
  rw [List.countP_map, better, ← List.countP_eq_length_filter, h.perm.countP_eq]
  rfl

/-- The nodes that are tied, in any order. -/
theorem length_tied (rank : N → Int) (cutoff : Int) (pool : List N) :
    (tied rank cutoff pool).length = (pool.map rank).count cutoff := by
  rw [List.count, List.countP_map, tied, ← List.countP_eq_length_filter]
  exact List.countP_congr fun node _ => by simp

/-- Scores that reach the cutoff are above it or at it. -/
theorem countP_le (scores : List Int) (cutoff : Int) :
    scores.countP (fun score => cutoff ≤ score) =
      scores.countP (fun score => cutoff < score) + scores.count cutoff := by
  induction scores with
  | nil => rfl
  | cons score scores ih =>
    rw [List.countP_cons, List.countP_cons, List.count_cons, ih]
    rcases lt_trichotomy cutoff score with h | rfl | h
    · simp [h, h.le, h.ne']
      omega
    · simp
      omega
    · simp [h.not_ge, h.not_gt, h.ne]

variable [RandomSource G]

/-- The block that is shuffled is that of the tied nodes, as they stand in the pool. -/
theorem shuffleTies_eq (h : StablyRanked rank pool sorted) (cutoff : Int) (source : G) :
    shuffleTies cutoff (sorted.map (scored rank)) source =
      ((better rank cutoff sorted ++
          ((shuffle (tied rank cutoff pool) source).1 ++ worse rank cutoff sorted)).map (scored rank),
        (shuffle (tied rank cutoff pool) source).2) := by
  obtain ⟨hbetter, hothers⟩ := span_of_downward (p := fun node => decide (cutoff < rank node))
    (h.falling.imp fun hle hlt => decide_eq_true ((of_decide_eq_true hlt).trans_le hle))
  have hdown : (sorted.filter fun node => !decide (cutoff < rank node)).Pairwise
      fun x y => decide (cutoff ≤ rank y) = true → decide (cutoff ≤ rank x) = true :=
    (h.falling.filter _).imp fun hle hlt => decide_eq_true ((of_decide_eq_true hlt).trans hle)
  obtain ⟨htied, hworse⟩ := span_of_downward hdown
  obtain ⟨htied', hworse'⟩ := filter_others rank cutoff sorted
  have hlt : (fun x : Int × N => decide (cutoff < x.1)) ∘ scored rank =
      fun node => decide (cutoff < rank node) := rfl
  have hle : (fun x : Int × N => decide (cutoff ≤ x.1)) ∘ scored rank =
      fun node => decide (cutoff ≤ rank node) := rfl
  have hlevel : tied rank cutoff sorted = tied rank cutoff pool := h.stable cutoff
  unfold shuffleTies
  simp only [List.takeWhile_map, List.dropWhile_map, hlt, hle, hbetter, hothers, htied, hworse,
    htied', hworse', hlevel, shuffle_map, List.map_append]
  rfl

/-- The ties are cut where the places end. -/
theorem cut_ties (front ties back : List N) (places : Nat) :
    front ++ (ties ++ back) = (front ++ ties.take places) ++ (ties.drop places ++ back) := by
  rw [List.append_assoc, ← List.append_assoc (ties.take places), List.take_append_drop]

/-- Where there are more nodes than places, the better nodes are kept, the places that
they leave go to the first of the shuffled ties, and all others are dropped. -/
theorem select_of_crowd (h : StablyRanked rank pool sorted) (room : 1 ≤ width)
    (crowd : width < pool.length) (last : LastPlace width (pool.map rank) cutoff) (source : G) :
    let ties := (shuffle (tied rank cutoff pool) source).1
    let places := width - (pool.map rank).countP fun score => cutoff < score
    select width (sorted.map (scored rank)) source =
      (⟨better rank cutoff sorted ++ ties.take places,
          ties.drop places ++ worse rank cutoff sorted⟩,
        (shuffle (tied rank cutoff pool) source).2) := by
  intro ties places
  obtain ⟨node, hnode, hlast⟩ := h.exists_lastPlace room crowd.le
  obtain rfl := last.unique hlast
  have hsome : (sorted.map (scored rank))[width - 1]? = some (rank node, node) := by
    rw [List.getElem?_map, hnode]
    rfl
  have hlength : ties.length = (pool.map rank).count (rank node) := by
    rw [(shuffle_perm _ source).length_eq, length_tied]
  have hplaces : places ≤ ties.length := by
    have henough := last.enough
    rw [countP_le] at henough
    omega
  have hbetter := length_better h (rank node)
  have hfew := last.few
  have hkept : (better rank (rank node) sorted ++ ties.take places).length = width := by
    rw [List.length_append, List.length_take_of_le hplaces, hbetter]
    omega
  unfold select
  split
  next first others cutoff' last' hdrop hfound =>
    obtain rfl := congrArg Prod.fst (Option.some.inj (hsome.symm.trans hfound))
    simp only [shuffleTies_eq h]
    rw [cut_ties _ ties _ places, ← List.map_take, ← List.map_drop, List.take_left' hkept,
      List.drop_left' hkept, map_snd_scored, map_snd_scored]
  next hother =>
    cases hdrop : (sorted.map (scored rank)).drop width with
    | nil =>
      have hle := List.drop_eq_nil_iff.mp hdrop
      rw [List.length_map, h.perm.length_eq] at hle
      omega
    | cons first others => exact (hother _ _ _ _ hdrop hsome).elim

end Cutting

/-- How the places of a round are given out: `kept` are the nodes of the pool that get one
of the `width` places, in order, and `dropped` are the others. -/
structure KeepsBest (rank : N → Int) (width : Nat) (pool kept dropped : List N) : Prop where
  /-- As many nodes are kept as there are places for. -/
  length_eq : kept.length = min width pool.length
  /-- Every node of the pool is kept or dropped. -/
  perm : (kept ++ dropped).Perm pool
  /-- No kept node stands behind a worse one. -/
  falling : kept.Pairwise fun x y => rank y ≤ rank x
  /-- No dropped node is better than a kept one. -/
  kept_best : ∀ node ∈ kept, ∀ other ∈ dropped, rank other ≤ rank node
  /-- All nodes above the cutoff are kept; those of the same rank stay in order. -/
  above : ∀ cutoff, LastPlace width (pool.map rank) cutoff → ∀ points, cutoff < points →
    kept.filter (fun node => rank node = points) = pool.filter (fun node => rank node = points) ∧
      ∀ node ∈ dropped, rank node ≠ points
  /-- All nodes below the cutoff are dropped. -/
  below : ∀ cutoff, LastPlace width (pool.map rank) cutoff → ∀ node ∈ kept, cutoff ≤ rank node
  /-- Where there are places for all, the pool is ranked and nothing else. -/
  roomy : pool.length ≤ width → StablyRanked rank pool kept ∧ dropped = []

/-- The first of the kept nodes is the best of the whole pool. -/
theorem KeepsBest.best {kept dropped : List N} (h : KeepsBest rank width pool kept dropped)
    {node : N} (hhead : kept.head? = some node) {other : N} (hm : other ∈ pool) :
    rank other ≤ rank node := by
  obtain ⟨others, rfl⟩ := List.head?_eq_some_iff.mp hhead
  rcases List.mem_append.mp (h.perm.mem_iff.mpr hm) with hm | hm
  · rcases List.mem_cons.mp hm with rfl | hm
    · exact le_rfl
    · exact (List.pairwise_cons.mp h.falling).1 other hm
  · exact h.kept_best node List.mem_cons_self other hm

section Rounds

variable {policy : Policy σ ε N} {state middle : σ} {nodes goals : List N}

/-- Nodes are expanded one after the other, and each is released afterwards. This brings up
a pool of children and the goals, both in the order of the expansions. -/
inductive BringsUp (policy : Policy σ ε N) : σ → List N → List N → List N → σ → Prop where
  /-- No node is left. -/
  | done {state : σ} : BringsUp policy state [] [] [] state
  /-- The first node has children. -/
  | children {state middle after last : σ} {node : N} {nodes kids pool goals : List N}
      (expands : policy.expand state node = .ok (.children kids, middle))
      (releases : policy.release middle node = .ok after)
      (rest : BringsUp policy after nodes pool goals last) :
      BringsUp policy state (node :: nodes) (kids ++ pool) goals last
  /-- The first node leads to a goal. -/
  | goal {state middle after last : σ} {node goal : N} {nodes pool goals : List N}
      (expands : policy.expand state node = .ok (.goal goal, middle))
      (releases : policy.release middle node = .ok after)
      (rest : BringsUp policy after nodes pool goals last) :
      BringsUp policy state (node :: nodes) pool (goal :: goals) last

/-- A harvest collects this behind what was there before. -/
theorem harvest_iff {found found' : Harvest N} :
    policy.harvest nodes found state = .ok (found', middle) ↔
      ∃ pool goals, BringsUp policy state nodes pool goals middle ∧
        found' = ⟨found.goals ++ goals.toArray, found.pool ++ pool.toArray⟩ := by
  constructor
  · intro ok
    induction nodes generalizing found state with
    | nil =>
      cases ok
      exact ⟨[], [], .done, by simp⟩
    | cons node nodes ih =>
      rw [Policy.harvest] at ok
      split at ok
      next => cases ok
      next expansion after hexpand =>
        split at ok
        next => cases ok
        next released hrelease =>
          obtain ⟨pool, goals, hrest, rfl⟩ := ih ok
          cases expansion with
          | goal goal =>
            exact ⟨pool, goal :: goals, .goal hexpand hrelease hrest, by simp [Harvest.add]⟩
          | children kids =>
            exact ⟨kids ++ pool, goals, .children hexpand hrelease hrest,
              by simp [Harvest.add]⟩
  · rintro ⟨pool, goals, brings, rfl⟩
    induction brings generalizing found with
    | done => simp [Policy.harvest]
    | children expands releases rest ih =>
      simp only [Policy.harvest, expands, releases, ih]
      simp [Harvest.add]
    | goal expands releases rest ih =>
      simp only [Policy.harvest, expands, releases, ih]
      simp [Harvest.add]

/-- Nodes that have scores are put beside them. -/
theorem scoreAll_eq (scores : ∀ node ∈ nodes, policy.score state node = .ok (rank node))
    (before : Array (Int × N)) :
    policy.scoreAll state nodes before = .ok (before ++ (nodes.map (scored rank)).toArray) := by
  induction nodes generalizing before with
  | nil => simp [Policy.scoreAll]
  | cons node nodes ih =>
    rw [Policy.scoreAll, scores node List.mem_cons_self]
    dsimp only
    rw [ih fun other hm => scores other (List.mem_cons_of_mem _ hm)]
    simp [scored]

variable [RandomSource G]

/-- What a round makes of the pool that its expansions bring up: it gives out the places to
the ranked nodes and releases those without one. -/
theorem searchRound_eq (brings : BringsUp policy state nodes pool goals middle)
    (scores : ∀ node ∈ pool, policy.score middle node = .ok (rank node)) (width round : Nat)
    (source : G) :
    let ranked := pool.mergeSort fun x y => decide (rank y ≤ rank x)
    let selection := select width (ranked.map (scored rank)) source
    (Searcher.mk width state nodes round source).searchRound policy =
      (policy.releaseAll selection.1.dropped middle).map fun last =>
        (goals, ⟨width, last, selection.1.kept, round + 1, selection.2⟩) := by
  intro ranked selection
  have hharvest : policy.harvest nodes .empty state = _ :=
    harvest_iff.mpr ⟨pool, goals, brings, rfl⟩
  have hranked : rankByScore (pool.map (scored rank)) = ranked.map (scored rank) :=
    (List.map_mergeSort (f := scored rank) fun _ _ _ _ => rfl).symm
  rw [Searcher.searchRound, hharvest]
  simp only [Harvest.empty, Array.empty_append, scoreAll_eq scores, hranked]
  cases policy.releaseAll selection.1.dropped middle <;> rfl

end Rounds

/-- A policy over numbers: 0 has eight children, some with the same score, and the others
have none. Its state is the list of the nodes that were released, the last one first. -/
def fanOut : Policy (List Nat) Unit Nat where
  expand released node := .ok (.children (if node = 0 then [1, 2, 3, 4, 5, 6, 7, 8] else []), released)
  score _ node := .ok ([0, 1, 5, 3, 3, 1, 3, 5, 3].getD node 0)
  release released node := .ok (node :: released)

end TernarySynth.Proofs.BestKept
