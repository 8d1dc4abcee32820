import TernarySynth.Proofs.RoundYield
import TernarySynth.Proofs.SearchBalance

/-!
# Generations

The frontier of a search is a generation: all of its nodes have decided the same
number of cells, and any two of them have decided some cell differently. The children
of two such nodes differ as their parents do, and the children of one node differ in
the cell that they decide. So every round leads from a generation to the next one, and
the goals that it finds are a part of the present one.
-/

namespace TernarySynth.Proofs.Generations

open TritWord CellCode RandomSource StateTree BeamSearch TargetSearch
open CodeValues TreeLine ExploredLine Lookahead NodeExpansion RoundLedger TargetLedger
open ExpansionEnd ExpansionLines RoundYield SearchBalance

variable {target : Target} {tree tree' : StateTree} {held goals : Multiset NodeId}
variable {id other : NodeId} {ids : List NodeId} {entries others : List (Word × Word)}
variable {expansion : Expansion NodeId}

section Offspring

/-- A live node whose line has decided these cells, the latest first. -/
def Decided (tree : StateTree) (id : NodeId) (entries : List (Word × Word)) : Prop :=
  ∃ line, Line tree id line ∧ decidedOn (nodesOf line) = entries

/-- A node that means the same has decided the same. -/
theorem Decided.keeps (h : Decided tree id entries) (hk : Keeps held tree tree') (hm : id ∈ held) :
    Decided tree' id entries := by
  obtain ⟨line, hline, he⟩ := h
  exact ⟨line, hk id hm line hline, he⟩

/-- What an expansion leaves of a node with these decisions: a goal with the same
ones, or for every instruction a child that has decided one more cell by it, or
nothing. -/
def Offspring (tree : StateTree) (entries : List (Word × Word)) : Expansion NodeId → Prop
  | .goal goal => Decided tree goal entries
  | .children kids => kids = [] ∨ ∃ a, List.Forall₂
    (fun instruction kid => Decided tree kid ((a, encode a instruction) :: entries))
    Instruction.all kids

/-- An expansion leaves that of a node in hand. -/
theorem expand_offspring (h : Ground target.lenient tree held) (hm : id ∈ held)
    (hd : Decided tree id entries) (ok : target.expand id tree = .ok expansion tree') :
    Offspring tree' entries expansion := by
  obtain ⟨line, hline, rfl⟩ := hd
  obtain ⟨node, rest, rfl, -⟩ := hline.eq_cons
  have hground : Ground target.lenient tree (inHand id id held) := by
    rwa [inHand, if_pos rfl]
  rw [Target.expand] at ok
  have hcontinues := expandFrom_continues hm hground hline ok
  cases expansion with
  | goal goal => exact hcontinues
  | children kids =>
    obtain ⟨line', hline', he⟩ := expandFrom_of_mem h hm target.phaseLimit
    rw [ok] at he
    unfold Expanded at he
    split at he
    next =>
      obtain ⟨_, ha⟩ := he
      cases ha
    next =>
      obtain ⟨_, ha, -⟩ := he
      cases ha
      exact .inl rfl
    next =>
      obtain ⟨_, _, _, ha, -⟩ := he
      cases ha
    next a last hf =>
      obtain ⟨_, found, _, ha, hleaves, hlast, hall⟩ := he
      cases ha
      have needs := needs_of_asks hf
      rw [← hlast] at needs
      -- One kid is enough to know the line that all of them go on from.
      obtain ⟨kid, hkid, child, hchild, -⟩ := exists_of_forall₂ hall (mem_all .noOp)
      obtain ⟨child', found', hchild', hentries⟩ := hcontinues kid hkid
      cases hchild.unique hchild'
      refine .inr ⟨a, hall.imp fun instruction kid hkid => ?_⟩
      obtain ⟨child, hchild, hstored⟩ := hkid
      have hdecision := decision_of_needs (hleaves.ground.explored hchild) needs hstored
      refine ⟨_, hchild, ?_⟩
      rw [nodesOf, List.map_cons, decidedOn_some hdecision]
      exact congrArg (_ :: ·) hentries

/-- The offspring stays where its handles mean the same. -/
theorem Offspring.keeps (h : Offspring tree entries expansion)
    (hk : Keeps (kidsOf expansion + goalsOf expansion) tree tree') :
    Offspring tree' entries expansion := by
  cases expansion with
  | goal goal =>
    exact Decided.keeps h hk (Multiset.mem_add.mpr (.inr (Multiset.mem_singleton_self goal)))
  | children kids =>
    rcases h with rfl | ⟨a, hall⟩
    · exact .inl rfl
    · obtain ⟨hlength, hall⟩ := List.forall₂_iff_get.mp hall
      refine .inr ⟨a, List.forall₂_iff_get.mpr ⟨hlength, fun i hi hj => (hall i hi hj).keeps hk ?_⟩⟩
      exact Multiset.mem_add.mpr (.inl (Multiset.mem_coe.mpr (List.get_mem kids ⟨i, hj⟩)))

/-- A harvest collects the offspring of its nodes, in order. Other handles mean the
same afterwards. -/
theorem harvest_offspring {found found' : Harvest NodeId}
    (h : Ground target.lenient tree (ids + held))
    (ok : target.policy.harvest ids found tree = .ok (found', tree')) :
    ∃ expansions : List (Expansion NodeId),
      List.Forall₂ (fun id expansion => ∀ entries, Decided tree id entries →
        Offspring tree' entries expansion) ids expansions ∧
      found'.pool.toList = found.pool.toList ++ expansions.flatMap kidsOf ∧
      found'.goals.toList = found.goals.toList ++ expansions.flatMap goalsOf ∧
      Keeps held tree tree' := by
  induction ids generalizing tree held found with
  | nil =>
    cases ok
    refine ⟨[], .nil, ?_, ?_, fun _ _ _ hline => hline⟩ <;>
      rw [List.flatMap_nil, List.append_nil]
  | cons id ids ih =>
    rw [← Multiset.cons_coe, Multiset.cons_add] at h
    have hm := Multiset.mem_cons_self id (ids + held)
    obtain ⟨expansion, middle, after, he, hrest, ⟨hground, hold⟩, hkept⟩ := harvest_cons h ok
    rw [add_left_comm] at hground
    obtain ⟨expansions, hall, hpool, hgoals, hkeeps⟩ := ih hground hrest
    obtain ⟨hpool', hgoals'⟩ := add_expansion found expansion
    refine ⟨expansion :: expansions, .cons (fun entries hd => ?_) ?_, ?_, ?_, ?_⟩
    · have hnew := (expand_offspring h hm hd he).keeps hkept
      exact hnew.keeps (hkeeps.of_le (Multiset.le_add_right _ _))
    · refine List.forall₂_iff_get.mpr ⟨hall.length_eq, fun i hi hj entries hd => ?_⟩
      have hmem : ids.get ⟨i, hi⟩ ∈ (ids + held : Multiset NodeId) :=
        Multiset.mem_add.mpr (.inl (Multiset.mem_coe.mpr (List.get_mem ids ⟨i, hi⟩)))
      exact (List.forall₂_iff_get.mp hall).2 i hi hj entries (hd.keeps hold hmem)
    · rw [hpool, hpool', List.flatMap_cons, List.append_assoc]
    · rw [hgoals, hgoals', List.flatMap_cons, List.append_assoc]
    · exact (hold.of_le (Multiset.le_add_left _ _)).trans
        (hkeeps.of_le (Multiset.le_add_left _ _))

end Offspring

section Differing

/-- Some cell is decided on both sides, with different values. -/
def Conflict (entries others : List (Word × Word)) : Prop :=
  ∃ a v w, (a, v) ∈ entries ∧ (a, w) ∈ others ∧ v ≠ w

/-- Two live nodes whose decisions are in conflict. -/
def Apart (tree : StateTree) (id other : NodeId) : Prop :=
  ∃ entries others, Decided tree id entries ∧ Decided tree other others ∧ Conflict entries others

/-- Conflicts go both ways. -/
theorem Apart.symm (h : Apart tree id other) : Apart tree other id := by
  obtain ⟨entries, others, hd, hd', a, v, w, hv, hw, hne⟩ := h
  exact ⟨others, entries, hd', hd, a, w, v, hw, hv, hne.symm⟩

/-- A conflict stays where both handles mean the same. -/
theorem Apart.keeps (h : Apart tree id other) (hk : Keeps held tree tree') (hm : id ∈ held)
    (hm' : other ∈ held) : Apart tree' id other := by
  obtain ⟨entries, others, hd, hd', hc⟩ := h
  exact ⟨entries, others, hd.keeps hk hm, hd'.keeps hk hm', hc⟩

/-- Further decisions do not settle a conflict. -/
theorem Conflict.mono {more further : List (Word × Word)} (h : Conflict entries others)
    (hsub : entries ⊆ more) (hsub' : others ⊆ further) : Conflict more further := by
  obtain ⟨a, v, w, hv, hw, hne⟩ := h
  exact ⟨a, v, w, hsub hv, hsub' hw, hne⟩

/-- Different instructions have different values at a cell. -/
theorem encode_ne {one two : Instruction} (h : one ≠ two) (a : Word) :
    encode a one ≠ encode a two := by
  intro he
  have hd := decode_encode false a one
  rw [he, decode_encode] at hd
  exact h (Option.some.inj hd).symm

/-- What is new in the offspring of a node comes on top of its decisions. -/
theorem Offspring.decided (h : Offspring tree entries expansion) :
    (∀ kid ∈ kidsOf expansion, ∃ entry, Decided tree kid (entry :: entries)) ∧
      ∀ goal ∈ goalsOf expansion, Decided tree goal entries := by
  cases expansion with
  | goal goal =>
    refine ⟨nofun, fun goal' hm => ?_⟩
    rw [List.mem_singleton.mp hm]
    exact h
  | children kids =>
    refine ⟨fun kid hm => ?_, nofun⟩
    rcases h with rfl | ⟨a, hall⟩
    · cases hm
    · obtain ⟨instruction, -, hd⟩ := exists_of_forall₂ hall.flip hm
      exact ⟨_, hd⟩

/-- The children of a node are in conflict with each other. -/
theorem Offspring.pairwise_kids (h : Offspring tree entries expansion) :
    (kidsOf expansion).Pairwise (Apart tree) := by
  cases expansion with
  | goal goal => exact .nil
  | children kids =>
    rcases h with rfl | ⟨a, hall⟩
    · exact .nil
    · have hnodup : Instruction.all.Pairwise (· ≠ ·) := by decide
      rw [List.forall₂_iff_get] at hall
      rw [kidsOf, List.pairwise_iff_get]
      intro i j hij
      have hlength := hall.1
      have hi : i.1 < Instruction.all.length := i.2.trans_le hlength.ge
      have hj : j.1 < Instruction.all.length := j.2.trans_le hlength.ge
      have hne := List.pairwise_iff_get.mp hnodup ⟨i.1, hi⟩ ⟨j.1, hj⟩ hij
      exact ⟨_, _, hall.2 i.1 hi i.2, hall.2 j.1 hj j.2, a, _, _, List.mem_cons_self,
        List.mem_cons_self, encode_ne hne a⟩

/-- The goals of a node are, since there is one at most. -/
theorem pairwise_goalsOf (expansion : Expansion NodeId) :
    (goalsOf expansion).Pairwise (Apart tree) := by
  cases expansion with
  | goal goal => exact List.pairwise_singleton _ goal
  | children kids => exact .nil

/-- What two nodes bring up is in conflict where they are. -/
theorem Offspring.conflict {expansion' : Expansion NodeId} (hc : Conflict entries others)
    (h : Offspring tree entries expansion) (h' : Offspring tree others expansion') :
    (∀ kid ∈ kidsOf expansion, ∀ kid' ∈ kidsOf expansion', Apart tree kid kid') ∧
      ∀ goal ∈ goalsOf expansion, ∀ goal' ∈ goalsOf expansion', Apart tree goal goal' := by
  constructor
  · intro kid hm kid' hm'
    obtain ⟨entry, hd⟩ := h.decided.1 kid hm
    obtain ⟨entry', hd'⟩ := h'.decided.1 kid' hm'
    exact ⟨_, _, hd, hd', hc.mono (List.subset_cons_self _ _) (List.subset_cons_self _ _)⟩
  · intro goal hm goal' hm'
    exact ⟨_, _, h.decided.2 goal hm, h'.decided.2 goal' hm', hc⟩

end Differing

/-- Nodes of which all have decided the same number of cells, and any two some cell
differently. -/
structure Generation (tree : StateTree) (ids : List NodeId) (level : Nat) : Prop where
  /-- Each has decided as many cells. -/
  level : ∀ id ∈ ids, ∃ entries, Decided tree id entries ∧ entries.length = level
  /-- No two of them, at whatever positions, agree in all decisions. -/
  apart : ids.Pairwise (Apart tree)

variable {level : Nat}

/-- A generation stays one where its handles mean the same. -/
theorem Generation.keeps (h : Generation tree ids level) (hk : Keeps ids tree tree') :
    Generation tree' ids level := by
  refine ⟨fun id hm => ?_, h.apart.imp_of_mem fun hm hm' hab => ?_⟩
  · obtain ⟨entries, hd, hl⟩ := h.level id hm
    exact ⟨entries, hd.keeps hk (Multiset.mem_coe.mpr hm), hl⟩
  · exact hab.keeps hk (Multiset.mem_coe.mpr hm) (Multiset.mem_coe.mpr hm')

/-- A part of a generation, in any order, is one. -/
theorem Generation.part {dropped kept : List NodeId} (h : Generation tree ids level)
    (heq : (ids : Multiset NodeId) = dropped + kept) : Generation tree kept level := by
  rw [Multiset.coe_add, Multiset.coe_eq_coe] at heq
  refine ⟨fun id hm => h.level id (heq.mem_iff.mpr (List.mem_append_right _ hm)), ?_⟩
  have hpair := (heq.pairwise_iff Apart.symm).mp h.apart
  exact (List.pairwise_append.mp hpair).2.1

/-- Offspring of different members of a generation is in conflict. -/
theorem Generation.pairwise_offspring (h : Generation tree ids level)
    {expansions : List (Expansion NodeId)}
    (hall : List.Forall₂ (fun id expansion => ∀ entries, Decided tree id entries →
      Offspring tree' entries expansion) ids expansions) :
    expansions.Pairwise fun expansion expansion' =>
      (∀ kid ∈ kidsOf expansion, ∀ kid' ∈ kidsOf expansion', Apart tree' kid kid') ∧
        ∀ goal ∈ goalsOf expansion, ∀ goal' ∈ goalsOf expansion', Apart tree' goal goal' := by
  rw [List.forall₂_iff_get] at hall
  obtain ⟨hlength, hall⟩ := hall
  refine List.pairwise_iff_get.mpr fun i j hij => ?_
  have hi : i.1 < ids.length := i.2.trans_le hlength.ge
  have hj : j.1 < ids.length := j.2.trans_le hlength.ge
  obtain ⟨entries, others, hd, hd', hc⟩ := List.pairwise_iff_get.mp h.apart ⟨i.1, hi⟩ ⟨j.1, hj⟩ hij
  exact Offspring.conflict hc (hall i.1 hi i.2 entries hd) (hall j.1 hj j.2 others hd')

/-- The harvest of a generation: its children are the next one, and its goals are a
part of the same. -/
theorem Generation.harvest {found : Harvest NodeId} (h : Generation tree ids level)
    (hground : Ground target.lenient tree (ids + held))
    (ok : target.policy.harvest ids .empty tree = .ok (found, tree')) :
    Generation tree' found.pool.toList (level + 1) ∧ Generation tree' found.goals.toList level := by
  obtain ⟨expansions, hall, hpool, hgoals, -⟩ := harvest_offspring hground ok
  have hpairs := h.pairwise_offspring hall
  have hpool : found.pool.toList = expansions.flatMap kidsOf := hpool
  have hgoals : found.goals.toList = expansions.flatMap goalsOf := hgoals
  have hparent : ∀ expansion ∈ expansions, ∃ entries, entries.length = level ∧
      Offspring tree' entries expansion := by
    intro expansion hm
    obtain ⟨id, hid, ho⟩ := exists_of_forall₂ hall.flip hm
    obtain ⟨entries, hd, hl⟩ := h.level id hid
    exact ⟨entries, hl, ho entries hd⟩
  rw [hpool, hgoals]
  constructor
  · refine ⟨fun kid hm => ?_, List.pairwise_flatMap.mpr ⟨fun expansion hm => ?_, ?_⟩⟩
    · obtain ⟨expansion, hexp, hkid⟩ := List.mem_flatMap.mp hm
      obtain ⟨entries, rfl, ho⟩ := hparent expansion hexp
      obtain ⟨entry, hd⟩ := ho.decided.1 kid hkid
      exact ⟨_, hd, List.length_cons⟩
    · obtain ⟨entries, -, ho⟩ := hparent expansion hm
      exact ho.pairwise_kids
    · exact hpairs.imp fun hab => hab.1
  · refine ⟨fun goal hm => ?_, List.pairwise_flatMap.mpr ⟨fun expansion _ => ?_, ?_⟩⟩
    · obtain ⟨expansion, hexp, hgoal⟩ := List.mem_flatMap.mp hm
      obtain ⟨entries, hl, ho⟩ := hparent expansion hexp
      exact ⟨entries, ho.decided.2 goal hgoal, hl⟩
    · exact pairwise_goalsOf expansion
    · exact hpairs.imp fun hab => hab.2

section Rounds

variable {σ ε N G ω : Type} [RandomSource G]

omit [RandomSource G] in
/-- The first round is number one. -/
theorem ofRoot_round {width : Nat} {state : σ} {top : N} {source : G} {searcher : Searcher σ N G}
    (begins : Searcher.ofRoot width state top source = .ok searcher) : searcher.round = 0 + 1 := by
  unfold Searcher.ofRoot at begins
  split at begins
  · cases begins
  · cases begins
    rfl

/-- A round counts itself. -/
theorem round_succ {policy : Policy σ ε N} {searcher searcher' : Searcher σ N G} {found : List N}
    (ok : searcher.searchRound policy = .ok (found, searcher')) :
    searcher'.round = searcher.round + 1 := by
  obtain ⟨width, state, frontier, round, source⟩ := searcher
  rw [Searcher.searchRound] at ok
  split at ok
  next => cases ok
  next =>
    split at ok
    next => cases ok
    next =>
      dsimp only at ok
      split at ok
      next => cases ok
      next =>
        cases ok
        rfl

/-- Rounds that find nothing, each on a frontier that has not died out. -/
inductive Quiet (policy : Policy σ ε N) : Nat → Searcher σ N G → Searcher σ N G → Prop where
  /-- No round at all. -/
  | none (searcher : Searcher σ N G) : Quiet policy 0 searcher searcher
  /-- One round, and others after it. -/
  | more {n : Nat} {searcher middle searcher' : Searcher σ N G} (busy : searcher.frontier ≠ [])
      (ran : searcher.searchRound policy = .ok ([], middle))
      (rest : Quiet policy n middle searcher') :
      Quiet policy (n + 1) searcher searcher'

/-- Quiet rounds are counted. -/
theorem Quiet.round_eq {policy : Policy σ ε N} {n : Nat} {searcher searcher' : Searcher σ N G}
    (h : Quiet policy n searcher searcher') : searcher'.round = searcher.round + n := by
  induction h with
  | none => rfl
  | more busy ran rest ih =>
    rw [ih, round_succ ran]
    omega

/-- How a run ends after quiet rounds. -/
def Ends (policy : Policy σ ε N) (limit n : Nat) (middle searcher' : Searcher σ N G) :
    RunEnd N → Prop
  | .exhausted => searcher' = middle ∧ middle.frontier = [] ∧ n < limit
  | .stopped => searcher' = middle ∧ middle.frontier ≠ [] ∧ n < limit
  | .unfinished => searcher' = middle ∧ n = limit
  | .found goal => n < limit ∧ middle.frontier ≠ [] ∧ ∃ others last,
    middle.searchRound policy = .ok (goal :: others, last) ∧
    policy.releaseAll others last.state = .ok searcher'.state ∧
    searcher'.frontier = last.frontier ∧ searcher'.round = last.round

/-- A run is a number of quiet rounds and perhaps one that finds goals, of which all
but the first are released. It stops only where its observer asks for it. -/
theorem run_parts {policy : Policy σ ε N} {observer : ω → Searcher σ N G → ω × Bool}
    {limit : Nat} {notes notes' : ω} {searcher searcher' : Searcher σ N G} {ending : RunEnd N}
    (ok : searcher.run policy observer limit notes = .ok (ending, notes', searcher')) :
    (∃ n middle, Quiet policy n searcher middle ∧ Ends policy limit n middle searcher' ending) ∧
      (ending = .stopped → ∃ notes seen, (observer notes seen).2 = false) := by
  rw [run_iff] at ok
  induction ok with
  | unfinished => exact ⟨⟨0, _, .none _, rfl, rfl⟩, nofun⟩
  | exhausted dead => exact ⟨⟨0, _, .none _, rfl, dead, Nat.succ_pos _⟩, nofun⟩
  | stopped busy stops =>
    exact ⟨⟨0, _, .none _, rfl, busy, Nat.succ_pos _⟩, fun _ => ⟨_, _, congrArg Prod.snd stops⟩⟩
  | @quiet limit notes seen notes' searcher next last ending busy goesOn ran rest ih =>
    obtain ⟨⟨n, middle, hquiet, hends⟩, hstops⟩ := ih
    refine ⟨⟨n + 1, middle, .more busy ran hquiet, ?_⟩, hstops⟩
    cases ending with
    | exhausted => exact ⟨hends.1, hends.2.1, Nat.succ_lt_succ hends.2.2⟩
    | stopped => exact ⟨hends.1, hends.2.1, Nat.succ_lt_succ hends.2.2⟩
    | unfinished => exact ⟨hends.1, congrArg (· + 1) hends.2⟩
    | found goal => exact ⟨Nat.succ_lt_succ hends.1, hends.2⟩
  | found busy goesOn ran released =>
    exact ⟨⟨0, _, .none _, Nat.succ_pos _, busy, _, _, ran, released, rfl, rfl⟩, nofun⟩

end Rounds

section Searching

variable {G : Type} [RandomSource G] {searcher searcher' : Searcher StateTree NodeId G}
variable {phases : Nat}

/-- A search whose frontier is a generation, with one decision less than the number of
the round that is about to run. -/
structure Sown (target : Target) (searcher : Searcher StateTree NodeId G)
    (goals : Multiset NodeId) : Prop where
  /-- The search has its frontier and these goals in hand. -/
  holds : Holds target searcher.state searcher.frontier goals
  /-- Its frontier is a generation. -/
  generation : ∃ level, searcher.round = level + 1 ∧
    Generation searcher.state searcher.frontier level

/-- A round leads to the next generation, and the goals that it finds are a part of the
present one. -/
theorem Sown.searchRound {found : List NodeId} (h : Sown target searcher goals)
    (ok : searcher.searchRound (within target phases).policy = .ok (found, searcher')) :
    Sown target searcher' (found + goals) ∧
      ∃ level, searcher.round = level + 1 ∧ Generation searcher'.state found level := by
  have hwithin : Holds (within target phases) _ _ _ := (holds_within phases).mpr h.holds
  have hround := hwithin.searchRound ok
  obtain ⟨level, hlevel, hgen⟩ := h.generation
  obtain ⟨harvest, middle, dropped, hh, rfl, hpool, hr, -⟩ := searchRound_parts ok
  obtain ⟨hkids, hgoals⟩ := hgen.harvest hwithin.ground hh
  rw [← add_zero (searcher.frontier : Multiset NodeId)] at hwithin
  have hafter := ((target_kept (within target phases)).harvest_empty hwithin hh).ground
  rw [add_zero, hpool, add_assoc] at hafter
  have hkept := releaseAll_keeps hafter hr
  refine ⟨⟨(holds_within phases).mp hround, level + 1, ?_, ?_⟩, level, hlevel, ?_⟩
  · rw [round_succ ok, hlevel]
  · exact (hkids.part hpool).keeps (hkept.of_le (Multiset.le_add_right _ _))
  · refine hgoals.keeps (hkept.of_le ?_)
    exact (Multiset.le_add_right _ goals).trans (Multiset.le_add_left _ _)

/-- So do quiet rounds. -/
theorem Sown.quiet {n : Nat} (h : Sown target searcher goals)
    (hq : Quiet (within target phases).policy n searcher searcher') :
    Sown target searcher' goals := by
  induction hq with
  | none => exact h
  | more busy ran rest ih =>
    have hnext := (h.searchRound ran).1
    rw [Multiset.coe_nil, zero_add] at hnext
    exact ih hnext

omit [RandomSource G] in
/-- What has been sown stays so when goals are given back. -/
theorem Sown.abandonAll {nodes : List NodeId} {state : StateTree}
    (h : Sown target searcher (nodes + goals))
    (ok : (within target phases).policy.releaseAll nodes searcher.state = .ok state) :
    Sown target { searcher with state := state } goals ∧
      Keeps (searcher.frontier + goals) searcher.state state := by
  obtain ⟨level, hlevel, hgen⟩ := h.generation
  have hwithin : Holds (within target phases) _ _ _ := (holds_within phases).mpr h.holds
  have hground := hwithin.ground
  rw [add_left_comm] at hground
  have hkept := releaseAll_keeps hground ok
  have hafter := (target_kept (within target phases)).abandonAll hwithin ok
  refine ⟨⟨(holds_within phases).mp hafter, level, hlevel, ?_⟩, hkept⟩
  exact hgen.keeps (hkept.of_le (Multiset.le_add_right _ _))

/-- A run leads to a later generation. The goal that it ends with is a member of the
last but one. -/
theorem Sown.run {ω : Type} {observer : ω → Searcher StateTree NodeId G → ω × Bool}
    {limit : Nat} {notes notes' : ω} {ending : RunEnd NodeId} (h : Sown target searcher goals)
    (ok : searcher.run (within target phases).policy observer limit notes =
      .ok (ending, notes', searcher')) :
    Sown target searcher' (goalOf ending + goals) ∧
      ∀ goal, ending = .found goal → ∃ level, searcher'.round = level + 2 ∧
        Generation searcher'.state [goal] level := by
  obtain ⟨⟨n, middle, hquiet, hends⟩, -⟩ := run_parts ok
  have hmiddle := h.quiet hquiet
  cases ending with
  | exhausted =>
    rw [hends.1, goalOf, zero_add]
    exact ⟨hmiddle, fun _ he => by cases he⟩
  | stopped =>
    rw [hends.1, goalOf, zero_add]
    exact ⟨hmiddle, fun _ he => by cases he⟩
  | unfinished =>
    rw [hends.1, goalOf, zero_add]
    exact ⟨hmiddle, fun _ he => by cases he⟩
  | found goal =>
    obtain ⟨-, -, others, last, hround, hr, hfrontier, hcount⟩ := hends
    obtain ⟨hlast, level, hlevel, hgen⟩ := hmiddle.searchRound hround
    rw [← Multiset.cons_coe, Multiset.cons_add, ← Multiset.add_cons] at hlast
    obtain ⟨hend, hkept⟩ := hlast.abandonAll hr
    rw [goalOf, Multiset.singleton_add]
    constructor
    · obtain ⟨holds, later, hlater, hgen'⟩ := hend
      dsimp only at holds hlater hgen'
      refine ⟨?_, later, ?_, ?_⟩
      · rw [hfrontier]
        exact holds
      · rw [hcount, hlater]
      · rw [hfrontier]
        exact hgen'
    · intro found he
      cases he
      have hparts : ((goal :: others : List NodeId) : Multiset NodeId) = others + [goal] := by
        rw [Multiset.coe_add, Multiset.coe_eq_coe]
        exact (List.perm_append_singleton goal others).symm
      have hfirst : Generation last.state [goal] level := hgen.part hparts
      refine ⟨level, ?_, hfirst.keeps (hkept.of_le ?_)⟩
      · rw [hcount, round_succ hround, hlevel]
      · refine Multiset.le_iff_exists_add.mpr ⟨last.frontier + goals, ?_⟩
        rw [Multiset.add_cons, Multiset.coe_singleton, Multiset.singleton_add]

/-- Every search from a root is sown, whatever rounds and runs it has made. -/
theorem sown_of_course (h : Course target searcher goals) : Sown target searcher goals := by
  induction h with
  | start made begins =>
    obtain ⟨holds, hfrontier, hline⟩ := holds_ofRoot target made begins
    refine ⟨holds, 0, ofRoot_round begins, ?_⟩
    rw [hfrontier]
    refine ⟨fun id hm => ?_, List.pairwise_singleton _ _⟩
    rw [List.mem_singleton.mp hm]
    exact ⟨[], ⟨_, hline, rfl⟩, rfl⟩
  | round before phases ran ih => exact (ih.searchRound ran).1
  | run before phases limit observer ran ih => exact (ih.run ran).1
  | @release searcher goals goal tree before released ih =>
    rw [← Multiset.singleton_add, ← Multiset.coe_singleton] at ih
    have ok : (within target 0).policy.releaseAll [goal] searcher.state = .ok tree := by
      simp only [Policy.releaseAll, Target.policy, released, outcome, Except.map]
    exact (ih.abandonAll ok).1

end Searching

end TernarySynth.Proofs.Generations
