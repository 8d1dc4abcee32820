import TernarySynth.Proofs.ExpansionLines

/-!
# What a round brings up

A node that succeeds yields a goal, and one that asks for a cell yields a child for
every instruction. A round hands out all goals that the nodes of its frontier yield.
The children have to be given places; where there is room for all of them, they are
the next frontier.
-/

namespace TernarySynth.Proofs.RoundYield

open CellCode RandomSource StateTree BeamSearch TargetSearch
open TreeLine LineMachine ExploredLine Lookahead NodeExpansion RoundLedger TargetLedger
open ExpansionLines

variable {target : Target} {tree tree' : StateTree} {held : Multiset NodeId}
variable {id : NodeId} {line : List (NodeId × Node)}

/-- What a node yields when it is expanded: a goal with its decisions if it succeeds,
and a child for every instruction if it asks for a cell. -/
structure Yields (target : Target) (tree : StateTree) (nodes : List Node)
    (kids goals : List NodeId) : Prop where
  /-- It may succeed. -/
  goal : ∀ last, fate target target.phaseLimit (machineOf nodes) = some (.succeeds last) →
    Among tree goals last (decidedOn nodes)
  /-- It may ask for a cell. -/
  child : ∀ a last, fate target target.phaseLimit (machineOf nodes) = some (.asks a last) →
    ∀ instruction, Among tree kids (last.store a (encode a instruction))
      ((a, encode a instruction) :: decidedOn nodes)

/-- The children that an expansion answers. -/
def kidsOf : Expansion NodeId → List NodeId
  | .goal _ => []
  | .children kids => kids

/-- The goal that an expansion answers. -/
def goalsOf : Expansion NodeId → List NodeId
  | .goal goal => [goal]
  | .children _ => []

/-- A harvest grows by the children and the goal of an expansion. -/
theorem add_expansion (found : Harvest NodeId) (expansion : Expansion NodeId) :
    (found.add expansion).pool.toList = found.pool.toList ++ kidsOf expansion ∧
      (found.add expansion).goals.toList = found.goals.toList ++ goalsOf expansion := by
  cases expansion with
  | goal goal => exact ⟨(List.append_nil _).symm, Array.toList_push⟩
  | children kids =>
    obtain ⟨hgoals, hpool⟩ := add_children found kids
    exact ⟨hpool, by rw [hgoals]; exact (List.append_nil _).symm⟩

/-- The expansion of a node in hand leaves what it answers in hand, and that is what
the node yields. -/
theorem expand_yields (h : Ground target.lenient tree held) (hm : id ∈ held)
    (hline : Line tree id line) {expansion : Expansion NodeId}
    (ok : target.expand id tree = .ok expansion tree') :
    Leaves target.lenient tree tree' (kidsOf expansion + goalsOf expansion) held ∧
      Yields target tree' (nodesOf line) (kidsOf expansion) (goalsOf expansion) := by
  refine ⟨?_, fun last hf => ?_, fun a last hf => ?_⟩
  · cases expansion with
    | goal goal => exact (leaves_goal h hm ok).1
    | children kids =>
      rw [kidsOf, goalsOf, Multiset.coe_nil, add_zero]
      exact leaves_children h hm ok
  · obtain ⟨goal, _, ok', -, hgoal⟩ := expand_succeeds h hm hline hf
    cases ok.symm.trans ok'
    exact hgoal
  · obtain ⟨kids, _, ok', -, hkids⟩ := expand_asks h hm hline hf
    cases ok.symm.trans ok'
    exact hkids

/-- An expansion answers at most one child for every instruction. -/
theorem kidsOf_length_le (h : Ground target.lenient tree held) (hm : id ∈ held)
    {expansion : Expansion NodeId} (ok : target.expand id tree = .ok expansion tree') :
    (kidsOf expansion).length ≤ Instruction.all.length := by
  obtain ⟨line, -, he⟩ := expandFrom_of_mem h hm target.phaseLimit
  rw [Target.expand] at ok
  rw [ok] at he
  unfold Expanded at he
  split at he
  next =>
    obtain ⟨_, ha⟩ := he
    cases ha
  next =>
    obtain ⟨_, ha, -⟩ := he
    cases ha
    exact Nat.zero_le _
  next =>
    obtain ⟨_, _, _, ha, -⟩ := he
    cases ha
    exact Nat.zero_le _
  next =>
    obtain ⟨_, _, _, ha, -, -, hall⟩ := he
    cases ha
    exact hall.length_eq.ge

/-- What a node yields stays where the handles mean the same. -/
theorem Yields.mono {nodes : List Node} {kids kids' goals goals' : List NodeId}
    (h : Yields target tree nodes kids goals) (hkids : kids ⊆ kids') (hgoals : goals ⊆ goals')
    (keeps : Keeps (kids + goals) tree tree') : Yields target tree' nodes kids' goals' :=
  ⟨fun last hf => (h.goal last hf).mono hgoals (keeps.of_le (Multiset.le_add_left _ _)),
    fun a last hf instruction =>
      (h.child a last hf instruction).mono hkids (keeps.of_le (Multiset.le_add_right _ _))⟩

/-- A harvest expands its first node, releases it and goes on with the others: then the
new handles are in hand, and all others mean the same. -/
theorem harvest_cons {ids : List NodeId} {found found' : Harvest NodeId}
    (h : Ground target.lenient tree (id ::ₘ held))
    (ok : target.policy.harvest (id :: ids) found tree = .ok (found', tree')) :
    ∃ expansion middle after, target.expand id tree = .ok expansion middle ∧
      target.policy.harvest ids (found.add expansion) after = .ok (found', tree') ∧
      Leaves target.lenient tree after (kidsOf expansion + goalsOf expansion) held ∧
      Keeps (kidsOf expansion + goalsOf expansion) middle after := by
  have hm := Multiset.mem_cons_self id held
  obtain ⟨node, line, hline⟩ := h.books.line_of_mem hm
  rw [Policy.harvest] at ok
  cases he : target.expand id tree with
  | error reason middle =>
    simp only [Target.policy, he, outcome] at ok
    cases ok
  | ok expansion middle =>
    have hleaves := (expand_yields h hm hline he).1
    have hground := hleaves.ground
    rw [Multiset.add_cons] at hground
    obtain ⟨after, hr, hground', hkept⟩ := hground.release
    simp only [Target.policy, he, hr, outcome, Except.map] at ok
    refine ⟨expansion, middle, after, rfl, ok, ⟨hground', ?_⟩,
      hkept.of_le (Multiset.le_add_right _ _)⟩
    exact (hleaves.keeps.of_le (Multiset.le_cons_self _ _)).trans
      (hkept.of_le (Multiset.le_add_left _ _))

/-- The first step of a harvest: the rest of it is in hand, and the new handles are
what the first node yields. -/
theorem harvest_step {ids : List NodeId} {found found' : Harvest NodeId}
    (h : Ground target.lenient tree
      (id ::ₘ (ids + (found.pool.toList + found.goals.toList + held))))
    (hline : Line tree id line)
    (ok : target.policy.harvest (id :: ids) found tree = .ok (found', tree')) :
    ∃ expansion after, target.policy.harvest ids (found.add expansion) after =
        .ok (found', tree') ∧
      Ground target.lenient after
        (ids + ((found.add expansion).pool.toList + (found.add expansion).goals.toList + held)) ∧
      Keeps (ids + (found.pool.toList + found.goals.toList)) tree after ∧
      Yields target after (nodesOf line) (kidsOf expansion) (goalsOf expansion) ∧
      (kidsOf expansion).length ≤ Instruction.all.length := by
  have hm := Multiset.mem_cons_self id (ids + (found.pool.toList + found.goals.toList + held))
  obtain ⟨expansion, middle, after, he, hrest, ⟨hground, hkeeps⟩, hkept⟩ := harvest_cons h ok
  obtain ⟨hpool, hgoals⟩ := add_expansion found expansion
  refine ⟨expansion, after, hrest, ?_, hkeeps.of_le ?_, ?_, kidsOf_length_le h hm he⟩
  · rw [hpool, hgoals, ← Multiset.coe_add, ← Multiset.coe_add]
    convert hground using 1
    ac_rfl
  · exact Multiset.add_le_add_left (Multiset.le_add_right _ _)
  · exact (expand_yields h hm hline he).2.mono (List.Subset.refl _) (List.Subset.refl _) hkept

/-- What a harvest has done in the end: what was brought up before is still there and
means the same, and what the nodes yield has come to it, at most eight children for
each. -/
structure Harvested (target : Target) (tree tree' : StateTree) (ids : List NodeId)
    (found found' : Harvest NodeId) : Prop where
  /-- Earlier handles mean the same. -/
  keeps : Keeps (found.pool.toList + found.goals.toList) tree tree'
  /-- Earlier children are still there. -/
  pool : found.pool.toList ⊆ found'.pool.toList
  /-- So are earlier goals. -/
  goals : found.goals.toList ⊆ found'.goals.toList
  /-- There are not many more children. -/
  size : found'.pool.size ≤ found.pool.size + ids.length * Instruction.all.length
  /-- There is what the nodes yield. -/
  yields : ∀ id ∈ ids, ∀ line, Line tree id line →
    Yields target tree' (nodesOf line) found'.pool.toList found'.goals.toList

/-- A harvest of nodes in hand does that. -/
theorem harvest_harvested {ids : List NodeId} {found found' : Harvest NodeId}
    (h : Ground target.lenient tree (ids + (found.pool.toList + found.goals.toList + held)))
    (ok : target.policy.harvest ids found tree = .ok (found', tree')) :
    Harvested target tree tree' ids found found' := by
  induction ids generalizing tree found with
  | nil =>
    cases ok
    exact ⟨fun _ _ _ hline => hline, List.Subset.refl _, List.Subset.refl _, Nat.le_add_right _ _,
      nofun⟩
  | cons id ids ih =>
    rw [← Multiset.cons_coe, Multiset.cons_add] at h
    obtain ⟨node, line, hline⟩ := h.books.line_of_mem (Multiset.mem_cons_self id _)
    obtain ⟨expansion, after, hrest, hground, hcarried, hyields, hfew⟩ := harvest_step h hline ok
    obtain ⟨hkeeps, hsubpool, hsubgoals, hsize, hall⟩ := ih hground hrest
    obtain ⟨hpool, hgoals⟩ := add_expansion found expansion
    have hgrown : (found.add expansion).pool.size = found.pool.size + (kidsOf expansion).length := by
      rw [← Array.length_toList, hpool, List.length_append, Array.length_toList]
    rw [hpool, hgoals, ← Multiset.coe_add, ← Multiset.coe_add, add_add_add_comm] at hkeeps
    rw [hpool] at hsubpool
    rw [hgoals] at hsubgoals
    refine ⟨?_, fun _ hin => hsubpool (List.mem_append_left _ hin),
      fun _ hin => hsubgoals (List.mem_append_left _ hin), ?_, fun other hin line' hline' => ?_⟩
    · exact (hcarried.of_le (Multiset.le_add_left _ _)).trans
        (hkeeps.of_le (Multiset.le_add_right _ _))
    · rw [List.length_cons, Nat.succ_mul]
      omega
    · rcases List.mem_cons.mp hin with rfl | hin
      · rw [hline'.unique hline]
        exact hyields.mono (fun _ hin => hsubpool (List.mem_append_right _ hin))
          (fun _ hin => hsubgoals (List.mem_append_right _ hin))
          (hkeeps.of_le (Multiset.le_add_left _ _))
      · exact hall other hin line'
          (hcarried other (Multiset.mem_add.mpr (.inl (Multiset.mem_coe.mpr hin))) line' hline')

/-- So the harvest of a frontier has what its nodes yield, and not many children. -/
theorem harvest_frontier {ids : List NodeId} {found : Harvest NodeId}
    (h : Ground target.lenient tree (ids + held))
    (ok : target.policy.harvest ids .empty tree = .ok (found, tree')) :
    found.pool.size ≤ ids.length * Instruction.all.length ∧
      ∀ id ∈ ids, ∀ line, Line tree id line →
        Yields target tree' (nodesOf line) found.pool.toList found.goals.toList := by
  have hground : Ground target.lenient tree (ids + ((Harvest.empty : Harvest NodeId).pool.toList +
      (Harvest.empty : Harvest NodeId).goals.toList + held)) := by
    change Ground _ _ (ids + (0 + 0 + held))
    rwa [zero_add, zero_add]
  obtain ⟨-, -, -, hsize, hall⟩ := harvest_harvested hground ok
  refine ⟨?_, hall⟩
  change _ ≤ 0 + _ at hsize
  rwa [Nat.zero_add] at hsize

/-- What is still in hand after others were released means the same. -/
theorem releaseAll_keeps {nodes : List NodeId} (h : Ground target.lenient tree (nodes + held))
    (ok : target.policy.releaseAll nodes tree = .ok tree') : Keeps held tree tree' := by
  induction nodes generalizing tree with
  | nil =>
    cases ok
    exact fun _ _ _ hline => hline
  | cons node nodes ih =>
    rw [← Multiset.cons_coe, Multiset.cons_add] at h
    obtain ⟨middle, hr, hg, hk⟩ := h.release
    have hp : target.policy.release tree node = .ok middle := by
      simp only [Target.policy, hr, outcome, Except.map]
    simp only [Policy.releaseAll, hp] at ok
    exact (hk.of_le (Multiset.le_add_left _ _)).trans (ih hg ok)

section Selections

variable {N G : Type} [RandomSource G]

/-- Where there is room for all nodes none is dropped, and no number is drawn. -/
theorem select_of_room {width : Nat} {ranked : List (Int × N)} (room : ranked.length ≤ width)
    (source : G) : select width ranked source = (⟨ranked.map Prod.snd, []⟩, source) := by
  rw [select, List.drop_eq_nil_of_le room]

/-- No more nodes are ranked than were scored. -/
theorem length_ranked {σ ε : Type} {policy : Policy σ ε N} {state : σ} {nodes : List N}
    {scored : Array (Int × N)} (ok : policy.scoreAll state nodes #[] = .ok scored) :
    (rankByScore scored.toList).length = nodes.length := by
  have hsnd := congrArg List.length (scoreAll_snd ok)
  rw [List.length_map, List.map_nil, List.nil_append] at hsnd
  rw [(rankByScore_perm _).length_eq, hsnd]

end Selections

variable {G : Type} {searcher searcher' : Searcher StateTree NodeId G}

/-- A round has room for all children that its expansions bring up. -/
def HasRoom (target : Target) (searcher : Searcher StateTree NodeId G) : Prop :=
  ∀ harvest tree, target.policy.harvest searcher.frontier .empty searcher.state =
    .ok (harvest, tree) → harvest.pool.size ≤ searcher.width

/-- A round with eight places for each node of the frontier has room. -/
theorem hasRoom_of_length {goals : Multiset NodeId}
    (h : Holds target searcher.state searcher.frontier goals)
    (wide : searcher.frontier.length * Instruction.all.length ≤ searcher.width) :
    HasRoom target searcher :=
  fun _ _ hh => (harvest_frontier h.ground hh).1.trans wide

variable [RandomSource G]

/-- A round harvests its frontier, hands out the goals and releases the children that
it drops; where it has room it drops none. -/
theorem searchRound_parts {found : List NodeId}
    (ok : searcher.searchRound target.policy = .ok (found, searcher')) :
    ∃ harvest tree, ∃ dropped : List NodeId,
      target.policy.harvest searcher.frontier .empty searcher.state = .ok (harvest, tree) ∧
      harvest.goals.toList = found ∧
      (harvest.pool.toList : Multiset NodeId) = dropped + searcher'.frontier ∧
      target.policy.releaseAll dropped tree = .ok searcher'.state ∧
      (harvest.pool.size ≤ searcher.width → dropped = []) := by
  obtain ⟨width, state, frontier, round, source⟩ := searcher
  rw [Searcher.searchRound] at ok
  split at ok
  next => cases ok
  next harvest tree hh =>
    split at ok
    next => cases ok
    next scored hs =>
      dsimp only at ok
      split at ok
      next => cases ok
      next after hr =>
        cases ok
        refine ⟨harvest, tree, _, hh, rfl, selection_eq hs width source, hr, fun room => ?_⟩
        rw [select_of_room ((length_ranked hs).trans_le room) source]

/-- The next frontier has at most eight nodes for each one of this frontier. -/
theorem frontier_length_le {goals : Multiset NodeId} {found : List NodeId}
    (h : Holds target searcher.state searcher.frontier goals)
    (ok : searcher.searchRound target.policy = .ok (found, searcher')) :
    searcher'.frontier.length ≤ searcher.frontier.length * Instruction.all.length := by
  obtain ⟨harvest, tree, dropped, hh, -, hpool, -⟩ := searchRound_parts ok
  have hcard := congrArg Multiset.card hpool
  rw [Multiset.card_add, Multiset.coe_card, Multiset.coe_card, Multiset.coe_card] at hcard
  have hsize : harvest.pool.toList.length ≤ _ := (harvest_frontier h.ground hh).1
  omega

/-- A round hands out the goals that the nodes of its frontier yield. If it has room,
its next frontier has the children that they yield. -/
theorem searchRound_yields {goals : Multiset NodeId} {found : List NodeId}
    (h : Holds target searcher.state searcher.frontier goals)
    (ok : searcher.searchRound target.policy = .ok (found, searcher'))
    (hm : id ∈ searcher.frontier) (hline : Line searcher.state id line) :
    (∀ last, fate target target.phaseLimit (machineOf (nodesOf line)) = some (.succeeds last) →
      Among searcher'.state found last (decidedOn (nodesOf line))) ∧
    (HasRoom target searcher →
      Yields target searcher'.state (nodesOf line) searcher'.frontier found) := by
  obtain ⟨harvest, tree, dropped, hh, rfl, hpool, hr, hroom⟩ := searchRound_parts ok
  have hyields := (harvest_frontier h.ground hh).2 id hm line hline
  rw [← add_zero (searcher.frontier : Multiset NodeId)] at h
  have hafter := ((target_kept target).harvest_empty h hh).ground
  rw [add_zero, hpool, add_assoc, ← add_assoc _ (harvest.goals.toList : Multiset NodeId)] at hafter
  have hkept := (releaseAll_keeps hafter hr).of_le (Multiset.le_add_right _ _)
  -- Goals are never released in a round, and children only where they are dropped.
  constructor
  · intro last hf
    exact (hyields.goal last hf).mono (List.Subset.refl _) (hkept.of_le (Multiset.le_add_left _ _))
  · intro room
    have hnone := hroom (room harvest tree hh)
    rw [hnone, Multiset.coe_nil, zero_add] at hpool
    have hsub : harvest.pool.toList ⊆ searcher'.frontier := fun other hin =>
      Multiset.mem_coe.mp (hpool ▸ Multiset.mem_coe.mpr hin)
    refine hyields.mono hsub (List.Subset.refl _) ?_
    rwa [hpool]

end TernarySynth.Proofs.RoundYield
