import Mathlib
import TernarySynth.Proofs.HeldMeaning
import TernarySynth.Proofs.NodeExpansion

/-!
# The books of an expansion

An expansion creates nodes and gives most of them back. The nodes that it leaves
behind were not live before, all others are where they were, and every slot has
gained exactly the holders that the answer accounts for: a handle on each node of
the answer, and a link from each node left behind. A node that is expanded need not
come from a search: it is enough that a client holds it.
-/

namespace TernarySynth.Proofs.ExpansionBooks

open TritWord CellCode MemoryImage TernarySynth.Cycle StateTree Speculation BeamSearch TargetSearch
open TreeLine HolderBooks HeldChains LineMachine NodeExpansion HandleClient HeldMeaning

variable {tree tree' : StateTree} {held : Multiset NodeId} {id origin current : NodeId}
variable {node : Node} {entry : NodeId × Node} {line way made : List (NodeId × Node)}

section LiveNodes

/-- The live nodes of a tree, each with its handle. -/
def liveNodes (tree : StateTree) : List (NodeId × Node) :=
  (List.range tree.slots.size).filterMap fun id => (tree.node? id).toOption.map (Prod.mk id)

/-- Whether an entry links to a node. -/
def entryLinksTo (id : NodeId) (entry : NodeId × Node) : Bool := entry.2.parent == some id

/-- Live nodes are listed with their handles. -/
theorem mem_liveNodes : entry ∈ liveNodes tree ↔ tree.node? entry.1 = .ok entry.2 := by
  obtain ⟨id, node⟩ := entry
  simp only [liveNodes, List.mem_filterMap, List.mem_range, Option.map_eq_some_iff,
    Prod.mk.injEq]
  constructor
  · rintro ⟨other, -, found, hfound, rfl, rfl⟩
    cases hn : tree.node? other with
    | error reason =>
      rw [hn] at hfound
      cases hfound
    | ok node =>
      rw [hn] at hfound
      cases hfound
      rfl
  · intro hn
    exact ⟨id, (live_iff.mpr ⟨_, hn⟩).lt_size, node, by rw [hn]; rfl, rfl, rfl⟩

/-- No live node is listed twice. -/
theorem nodup_liveNodes (tree : StateTree) : (liveNodes tree).Nodup := by
  refine List.Nodup.filterMap (fun one other entry hone hother => ?_) List.nodup_range
  obtain ⟨_, -, rfl⟩ := Option.map_eq_some_iff.mp hone
  obtain ⟨_, -, heq⟩ := Option.map_eq_some_iff.mp hother
  exact (Prod.mk.inj heq).1.symm

/-- Held slots can be counted by their nodes. -/
theorem countP_liveNodes (tree : StateTree) (p : Node → Bool) :
    tree.slots.countP (fun slot => isHeld slot && p slot.node) =
      (liveNodes tree).countP fun entry => p entry.2 := by
  rw [countP_slots, liveNodes, List.countP_filterMap]
  refine List.countP_congr fun id hid => ?_
  obtain ⟨slot, hs⟩ : ∃ slot, tree.slots[id]? = some slot :=
    ⟨_, Array.getElem?_eq_getElem (List.mem_range.mp hid)⟩
  have hn : tree.node? id = if slot.holders = 0 then .error (.released id) else .ok slot.node := by
    rw [StateTree.node?, hs]
  rw [hs, hn, Option.any_some, isHeld]
  by_cases hz : slot.holders = 0
  · rw [if_pos hz, hz]
    rfl
  · rw [if_neg hz, bne_iff_ne.mpr hz, Bool.true_and]
    rfl

/-- One tree has the nodes of another, each where it was, and besides them the nodes
`made`, in slots in which no node was live. -/
structure Adds (tree tree' : StateTree) (made : List (NodeId × Node)) : Prop where
  /-- No slot is named twice. -/
  nodup : (made.map Prod.fst).Nodup
  /-- No node was live there. -/
  fresh : ∀ entry ∈ made, ¬ Live tree entry.1
  /-- These nodes are live now, with the old ones, and no others are. -/
  node?_iff : ∀ id node, tree'.node? id = .ok node ↔
    tree.node? id = .ok node ∨ (id, node) ∈ made

/-- The live nodes are the old ones and those that were made. -/
theorem Adds.perm (h : Adds tree tree' made) :
    (liveNodes tree').Perm (liveNodes tree ++ made) := by
  have hmade : (liveNodes tree ++ made).Nodup := by
    refine (nodup_liveNodes tree).append h.nodup.of_map fun entry hold hnew => ?_
    exact h.fresh entry hnew (live_iff.mpr ⟨_, mem_liveNodes.mp hold⟩)
  rw [List.perm_ext_iff_of_nodup (nodup_liveNodes tree') hmade]
  intro entry
  rw [List.mem_append, mem_liveNodes, mem_liveNodes, h.node?_iff]

/-- Whatever is counted of the held slots, the nodes that were made add to it. -/
theorem Adds.countP_eq (h : Adds tree tree' made) (p : Node → Bool) :
    tree'.slots.countP (fun slot => isHeld slot && p slot.node) =
      tree.slots.countP (fun slot => isHeld slot && p slot.node) +
        made.countP fun entry => p entry.2 := by
  rw [countP_liveNodes, countP_liveNodes, h.perm.countP_eq, List.countP_append]

/-- There are as many live nodes more as were made. -/
theorem Adds.live_eq {held' : Multiset NodeId} (h : Adds tree tree' made) (hb : Books tree held)
    (hb' : Books tree' held') : tree'.live = tree.live + made.length := by
  have hc := h.countP_eq fun _ => true
  simp only [Bool.and_true, List.countP_true] at hc
  rw [hb.live_eq, hb'.live_eq]
  exact hc

/-- The links of live nodes are the old ones and those from nodes that were made. -/
theorem Adds.liveLinks_add (h : Adds tree tree' made) (id : NodeId) :
    liveLinks tree' id = liveLinks tree id + made.countP (entryLinksTo id) :=
  h.countP_eq fun node => node.parent == some id

/-- A slot has gained the new handles and the links from nodes that were made. -/
theorem Adds.holders_eq {new : Multiset NodeId} (h : Adds tree tree' made) (hb : Books tree held)
    (hb' : Books tree' (new + held)) (id : NodeId) :
    tree'.holders id = tree.holders id + new.count id + made.countP (entryLinksTo id) := by
  have hl := h.liveLinks_add id
  rw [liveLinks_eq hb, liveLinks_eq hb'] at hl
  rw [hb.holders_eq, hb'.holders_eq, hl, Multiset.count_add]
  omega

end LiveNodes

section Lines

/-- What is kept for the handles in use is kept for every live node. -/
theorem line_of_keeps (hb : Books tree held) (hk : Keeps held tree tree')
    (h : Line tree id line) : Line tree' id line := by
  obtain ⟨handle, hm, below, hbelow, hid⟩ := onLine_of_line hb h
  obtain ⟨entry, he, rfl⟩ := List.mem_map.mp hid
  obtain ⟨rest, hrest, hsuffix⟩ := hbelow.suffix he
  rw [h.unique hrest]
  refine hrest.frame fun other ho => ?_
  exact (hk handle hm _ hbelow).node?_of_mem (hsuffix.subset ho)

/-- So every live node stays live. -/
theorem live_of_keeps (hb : Books tree held) (hk : Keeps held tree tree') (hl : Live tree id) :
    Live tree' id := by
  obtain ⟨line, hline⟩ := hb.rooted id hl
  exact (line_of_keeps hb hk hline).live

/-- The line of a parent is the rest of the line. -/
theorem line_above {parent : NodeId} (h : Line tree id (entry :: line))
    (hp : entry.2.parent = some parent) : Line tree parent line := by
  cases h with
  | root here top =>
    rw [top] at hp
    cases hp
  | child here link above =>
    cases link.symm.trans hp
    exact above

/-- No node links to one that is as far from the root. -/
theorem not_linked {kid : NodeId} {other : NodeId × Node} {more : List (NodeId × Node)}
    (h : Line tree id (entry :: line)) (hkid : Line tree kid (other :: more))
    (hle : line.length ≤ more.length) : entryLinksTo kid entry = false := by
  rw [entryLinksTo, beq_eq_false_iff_ne]
  intro hp
  have heq := (line_above h hp).unique hkid
  rw [heq, List.length_cons] at hle
  omega

/-- No node of a line links to the node that the line begins with. -/
theorem not_linked_of_mem (h : Line tree id line) (he : entry ∈ line) :
    entryLinksTo id entry = false := by
  obtain ⟨rest, hrest, hsuffix⟩ := h.suffix he
  obtain ⟨node, above, rfl, hn⟩ := hrest.eq_cons
  obtain ⟨top, others, rfl, -⟩ := h.eq_cons
  cases hn.symm.trans (h.node?_of_mem he)
  exact not_linked hrest h (Nat.le_of_succ_le_succ hsuffix.length_le)

/-- Different nodes on top of the same line are not on the line. -/
theorem nodup_append_way (hmade : (made.map Prod.fst).Nodup) (hway : (way.map Prod.fst).Nodup)
    (hlines : ∀ entry ∈ made, Line tree entry.1 (entry :: (way ++ line))) :
    ((made ++ way).map Prod.fst).Nodup := by
  rw [List.map_append, List.nodup_append']
  refine ⟨hmade, hway, fun kid hkid hm => ?_⟩
  obtain ⟨entry, he, rfl⟩ := List.mem_map.mp hkid
  have hn := (hlines entry he).nodup
  rw [List.map_cons, List.nodup_cons, List.map_append, List.mem_append] at hn
  exact hn.1 (.inl hm)

end Lines

section Requests

variable {client before after : Client}

/-- A client may drop a node on the way, and all other handles mean the same. -/
theorem dropBetween_reachable {new : Multiset NodeId} (h : client.Reachable)
    (hheld : client.held = new + inHand origin current held) :
    ∃ after : Client, Target.dropBetween origin current client.tree = .ok () after.tree ∧
      after.Reachable ∧ after.held = new + held ∧ Keeps (new + held) client.tree after.tree := by
  unfold inHand at hheld
  unfold Target.dropBetween
  by_cases hc : current = origin
  · rw [if_pos hc] at hheld ⊢
    exact ⟨client, rfl, h, hheld, fun _ _ _ hline => hline⟩
  · rw [if_neg hc, Multiset.add_cons] at hheld
    rw [if_neg hc]
    have hm : current ∈ client.held := hheld ▸ Multiset.mem_cons_self current _
    have hb := h.sound.books
    rw [hheld] at hb
    obtain ⟨tree', hr, hb', hold⟩ := hb.releaseFrom
    refine ⟨_, ?_, h.serve (.release current) (Request.allowed_of_mem rfl hm)
      (ClientHistory.serve_release hr), ?_, fun other ho line hline => ?_⟩
    · exact hr
    · rw [hheld, Multiset.erase_cons_head]
    · exact hb'.keeps_of_old hold ho hline

/-- Children of a node that a client has got hold of. -/
structure Branched (client after : Client) (line made : List (NodeId × Node)) : Prop where
  /-- The client has used handles as it may. -/
  reach : after.Reachable
  /-- It holds each of the children once more. -/
  held_eq : after.held = (made.map Prod.fst : List NodeId) + client.held
  /-- No child is named twice. -/
  nodup : (made.map Prod.fst).Nodup
  /-- None of them was live. -/
  fresh : ∀ entry ∈ made, ¬ Live client.tree entry.1
  /-- They come on top of the line of the node. -/
  line : ∀ entry ∈ made, Line after.tree entry.1 (entry :: line)
  /-- Everything else is as it was. -/
  keeps : ∀ {other found}, Line client.tree other found → Line after.tree other found

/-- A child that was created before the others is one of them. -/
theorem Branched.cons (h : client.Reachable) {small : StateTree} {kid : NodeId} {edge : Edge}
    (hs : Successor client.tree small client.held line kid node)
    (hb : Branched (client.gain small kid edge) after line made) :
    Branched client after line ((kid, node) :: made) := by
  refine ⟨hb.reach, ?_, ?_, fun entry he => ?_, fun entry he => ?_,
    fun hfound => hb.keeps (hs.grown.keeps hfound)⟩
  · rw [hb.held_eq, List.map_cons, ← Multiset.cons_coe, Multiset.cons_add]
    exact Multiset.add_cons _ _ _
  · rw [List.map_cons, List.nodup_cons]
    refine ⟨fun hkid => ?_, hb.nodup⟩
    obtain ⟨entry, he, heq⟩ := List.mem_map.mp hkid
    exact hb.fresh entry he (heq ▸ hs.line.live)
  · rcases List.mem_cons.mp he with rfl | he
    · exact hs.grown.fresh
    · have hkeeps : Keeps client.held client.tree small := fun _ _ _ => hs.grown.keeps
      exact fun hl => hb.fresh entry he (live_of_keeps h.sound.books hkeeps hl)
  · rcases List.mem_cons.mp he with rfl | he
    · exact hb.keeps hs.line
    · exact hb.line entry he

/-- A client may decide a cell below a held node in several ways. -/
theorem decideAll_reachable (h : client.Reachable) (hm : current ∈ client.held)
    (hline : Line client.tree current ((current, node) :: line)) (address : Word)
    (instructions : List Instruction) :
    ∃ made after, made.length = instructions.length ∧
      (instructions.mapM fun instruction => decide current address instruction) client.tree =
        .ok (made.map Prod.fst) after.tree ∧
      Branched client after ((current, node) :: line) made := by
  induction instructions generalizing client with
  | nil =>
    refine ⟨[], client, rfl, rfl, h, ?_, List.nodup_nil, nofun, nofun, id⟩
    rw [List.map_nil, Multiset.coe_nil, Multiset.zero_add]
  | cons instruction instructions ih =>
    obtain ⟨kid, child, small, hd, hs, -⟩ := decide_eq h.sound.books hline address instruction
    let next := client.gain small kid (.decided address instruction)
    have hnext : next.Reachable := by
      refine h.serve (.decide current address instruction) (Request.allowed_of_mem rfl hm) ?_
      simp only [Client.serve, hd, next]
    obtain ⟨made, after, hlength, hall, hbranched⟩ :=
      ih hnext (Multiset.mem_cons_of_mem hm) (hs.grown.keeps hline)
    refine ⟨(kid, child) :: made, after, ?_, ?_, hbranched.cons h hs⟩
    · rw [List.length_cons, List.length_cons, hlength]
    · change (instructions.mapM fun instruction => decide current address instruction) small = _
        at hall
      simp only [List.mapM_cons, bind, EStateM.bind, hd, hall, pure, EStateM.pure, List.map_cons]

/-- What an expansion has done for a client that holds the node: the client has got
hold of the nodes `new`, and the nodes `made` have been left behind. -/
structure Booked (before after : Client) (new : List NodeId) (made : List (NodeId × Node)) :
    Prop where
  /-- Handles were used as a client may use them. -/
  reach : after.Reachable
  /-- The client holds each of the new nodes once more, and all others as often as
  before. -/
  held_eq : after.held = new + before.held
  /-- Every live node stands for the state that it stood for. -/
  unchanged : ∀ other, Live before.tree other → Unchanged before.tree after.tree other
  /-- The live nodes are the old ones and those left behind. -/
  adds : Adds before.tree after.tree made
  /-- They are counted. -/
  live_eq : after.tree.live = before.tree.live + made.length
  /-- Every slot has gained the new handles, and the links from nodes left behind. -/
  holders_eq : ∀ other, after.tree.holders other =
    before.tree.holders other + new.count other + made.countP (entryLinksTo other)

/-- A node that a single handle holds. -/
structure HeldOnce (tree : StateTree) (id : NodeId) : Prop where
  /-- It has one holder. -/
  holders_eq : tree.holders id = 1
  /-- No node links to it. -/
  links_eq : liveLinks tree id = 0

/-- A node that only other nodes hold. -/
def OnlyLinked (tree : StateTree) (id : NodeId) : Prop := tree.holders id = liveLinks tree id

/-- What the answer to the expansion of a held node says about what it has done. The
nodes between the node and those of the answer are `way`, the latest first. -/
def Settled (lenient : Bool) (before after : Client) (id : NodeId) : Expansion NodeId → Prop
  | .children [] => Booked before after [] [] ∧ after.tree.live = before.tree.live ∧
    ∀ other, after.tree.holders other = before.tree.holders other
  | .children kids => kids.length = 8 ∧ ∃ line made way, kids = made.map Prod.fst ∧
    Line before.tree id line ∧ (∀ entry ∈ made, Line after.tree entry.1 (entry :: (way ++ line))) ∧
    Booked before after kids (made ++ way) ∧ (∀ kid ∈ kids, HeldOnce after.tree kid) ∧
    ∀ entry ∈ way, OnlyLinked after.tree entry.1
  | .goal goal => (goal = id ↔ transition lenient id before.tree = .ok .exited before.tree) ∧
    (goal = id → Booked before after [id] []) ∧
    (goal ≠ id → ∃ line node way, Line before.tree id line ∧
      Line after.tree goal ((goal, node) :: (way ++ line)) ∧
      Booked before after [goal] ((goal, node) :: way) ∧ HeldOnce after.tree goal ∧
      ∀ entry ∈ way, OnlyLinked after.tree entry.1)

/-- A client at the end of an expansion: it holds the nodes `new` besides the old
ones, and its tree has the nodes `made`. -/
structure Finished (before after : Client) (new : List NodeId) (made : List (NodeId × Node)) :
    Prop where
  /-- It has used handles as it may. -/
  reach : after.Reachable
  /-- It holds each of the new nodes once more. -/
  held_eq : after.held = new + before.held
  /-- Its old handles mean the same. -/
  keeps : Keeps before.held before.tree after.tree
  /-- No slot is named twice. -/
  nodup : (made.map Prod.fst).Nodup
  /-- No node was live there. -/
  fresh : ∀ entry ∈ made, ¬ Live before.tree entry.1
  /-- The nodes are there. -/
  here : ∀ entry ∈ made, after.tree.node? entry.1 = .ok entry.2
  /-- On the lines of the new nodes there are no others, but for old ones. -/
  lines : ∀ handle ∈ new, ∃ found, Line after.tree handle found ∧
    ∀ entry ∈ found, entry ∈ made ∨ before.tree.node? entry.1 = .ok entry.2

variable {new : List NodeId}

/-- At the end of an expansion the live nodes are the old ones and those made. What
is live is on the line of a handle in use. -/
theorem Finished.adds (hb : Books before.tree before.held)
    (h : Finished before after new made) : Adds before.tree after.tree made := by
  refine ⟨h.nodup, h.fresh, fun id node => ⟨fun hn => ?_, fun hn => ?_⟩⟩
  · obtain ⟨handle, hm, line, hline, hid⟩ :=
      (live_iff_onLine h.reach.sound.books id).mp (live_iff.mpr ⟨node, hn⟩)
    obtain ⟨entry, he, rfl⟩ := List.mem_map.mp hid
    cases hn.symm.trans (hline.node?_of_mem he)
    rw [h.held_eq, Multiset.mem_add, Multiset.mem_coe] at hm
    rcases hm with hm | hm
    · obtain ⟨found, hfound, hall⟩ := h.lines handle hm
      rw [hline.unique hfound] at he
      exact (hall entry he).symm
    · obtain ⟨found, hfound⟩ := hb.rooted handle (hb.live_of_mem hm)
      rw [hline.unique (h.keeps handle hm found hfound)] at he
      exact .inl (hfound.node?_of_mem he)
  · rcases hn with hn | hm
    · obtain ⟨line, hline⟩ := hb.rooted id (live_iff.mpr ⟨node, hn⟩)
      obtain ⟨found, rest, rfl, hfound⟩ := hline.eq_cons
      cases hn.symm.trans hfound
      exact (line_of_keeps hb h.keeps hline).node?_of_mem List.mem_cons_self
    · exact h.here (id, node) hm

/-- At its end an expansion is booked. -/
theorem Finished.booked (hbefore : before.Reachable) (h : Finished before after new made) :
    Booked before after new made := by
  have hb := hbefore.sound.books
  have hb' := h.reach.sound.books
  have hadds := h.adds hb
  refine ⟨h.reach, h.held_eq, fun other hl => ?_, hadds, hadds.live_eq hb hb', fun other => ?_⟩
  · obtain ⟨line, hline⟩ := hb.rooted other hl
    exact unchanged_of_line hline (line_of_keeps hb h.keeps hline)
  · rw [h.held_eq] at hb'
    rw [hadds.holders_eq hb hb', Multiset.coe_count]

/-- A node that was not live was not held. -/
theorem not_mem_held (hb : Books tree held) (hl : ¬ Live tree id) : id ∉ held :=
  fun hm => hl (hb.live_of_mem hm)

/-- A node left behind on which the client has no handle is held by links only. -/
theorem Finished.onlyLinked (hbefore : before.Reachable) (h : Finished before after new made)
    (he : entry ∈ made) (hnew : entry.1 ∉ new) : OnlyLinked after.tree entry.1 := by
  have hm : entry.1 ∉ after.held := by
    rw [h.held_eq, Multiset.mem_add, Multiset.mem_coe]
    exact not_or.mpr ⟨hnew, not_mem_held hbefore.sound.books (h.fresh entry he)⟩
  have hb := h.reach.sound.books
  rw [OnlyLinked, liveLinks_eq hb, hb.holders_eq, Multiset.count_eq_zero_of_notMem hm, Nat.zero_add]

/-- A node left behind that no other links to is held once, if the client has got one
handle on it. -/
theorem Finished.heldOnce (hbefore : before.Reachable) (h : Finished before after new made)
    (he : entry ∈ made) (hnew : new.count entry.1 = 1)
    (hlinks : ∀ other ∈ made, entryLinksTo entry.1 other = false) :
    HeldOnce after.tree entry.1 := by
  have hz : before.tree.holders entry.1 = 0 := not_not.mp (h.fresh entry he)
  have hcount : made.countP (entryLinksTo entry.1) = 0 := by
    rw [List.countP_eq_zero]
    intro other ho
    rw [hlinks other ho]
    exact Bool.false_ne_true
  have hbooked := h.booked hbefore
  have hlive := hbooked.adds.liveLinks_add entry.1
  have hb := hbefore.sound.books
  have hold := hb.holders_eq entry.1
  rw [← liveLinks_eq hb] at hold
  refine ⟨?_, by omega⟩
  rw [hbooked.holders_eq, hz, hnew, hcount]

end Requests

section Expanding

variable {target : Target} {lenient : Bool} {before client : Client}

/-- A client on the way from a node that `before` holds and that has this line. The
nodes on the way are `way`, the latest first. -/
structure OnWay (lenient : Bool) (before client : Client) (origin current : NodeId)
    (line way : List (NodeId × Node)) : Prop where
  /-- It has used handles as it may. -/
  reach : client.Reachable
  /-- Besides its old handles it has one on the present node, unless that is the node
  that is expanded. -/
  held_eq : client.held = inHand origin current before.held
  /-- Its old handles mean the same. -/
  keeps : Keeps before.held before.tree client.tree
  /-- No node on the way was live. -/
  fresh : ∀ entry ∈ way, ¬ Live before.tree entry.1
  /-- Where there is a way, the node that is expanded has run a phase. -/
  ran : way ≠ [] → (step lenient (machineOf (nodesOf line))).1 = .completed .running
  /-- The present node has come out of the node that is expanded. -/
  line : Line client.tree current (way ++ line)

/-- An expansion begins at the node that is expanded. -/
theorem onWay_start (hbefore : before.Reachable) (hline : Line before.tree origin line) :
    OnWay lenient before before origin origin line [] :=
  ⟨hbefore, (if_pos rfl).symm, fun _ _ _ hfound => hfound, nofun, fun hne => absurd rfl hne, hline⟩

/-- It is at that node as long as nothing is on the way. -/
theorem OnWay.eq_origin_iff (h : OnWay lenient before client origin current line way)
    (hline : Line before.tree origin line) : current = origin ↔ way = [] := by
  obtain ⟨top, rest, rfl, -⟩ := hline.eq_cons
  obtain ⟨node, nodes, heq, -⟩ := h.line.eq_cons
  cases way with
  | nil =>
    cases heq
    exact ⟨fun _ => rfl, fun _ => rfl⟩
  | cons entry way =>
    cases heq
    refine ⟨?_, nofun⟩
    rintro rfl
    exact absurd hline.live (h.fresh _ List.mem_cons_self)

/-- The present node is among those that the client holds. -/
theorem OnWay.mem_held (h : OnWay lenient before client origin current line way)
    (horigin : origin ∈ before.held) : current ∈ client.held :=
  h.held_eq ▸ mem_inHand horigin

/-- The nodes on the way are nodes of the tree, no two of them the same. -/
theorem OnWay.node?_of_mem (h : OnWay lenient before client origin current line way)
    (he : entry ∈ way) : client.tree.node? entry.1 = .ok entry.2 :=
  h.line.node?_of_mem (List.mem_append_left line he)

/-- No two nodes on the way have the same handle. -/
theorem OnWay.nodup (h : OnWay lenient before client origin current line way) :
    (way.map Prod.fst).Nodup := by
  have hn := h.line.nodup
  rw [List.map_append] at hn
  exact hn.of_append_left

/-- A dead end leaves nothing behind. -/
theorem OnWay.dies (h : OnWay lenient before client origin current line way) :
    ∃ after : Client, Target.dropBetween origin current client.tree = .ok () after.tree ∧
      Finished before after [] [] := by
  have hheld : client.held = 0 + inHand origin current before.held := by
    rw [Multiset.zero_add, h.held_eq]
  obtain ⟨after, hd, hreach, hheld', hk⟩ := dropBetween_reachable h.reach hheld
  rw [Multiset.zero_add] at hk
  exact ⟨after, hd, hreach, hheld', h.keeps.trans hk, List.nodup_nil, nofun, nofun, nofun⟩

/-- The node that is expanded gets another handle where it is a goal itself. -/
theorem OnWay.succeeds_here (h : OnWay lenient before client origin origin line [])
    (horigin : origin ∈ before.held) (hline : Line before.tree origin line) :
    ∃ after : Client, retain origin client.tree = .ok () after.tree ∧
      Finished before after [origin] [] := by
  have hl := h.line.live
  have hm := h.mem_held horigin
  refine ⟨⟨client.tree.addHolder origin, origin ::ₘ client.held, client.edge⟩, rfl, ?_, ?_, ?_,
    List.nodup_nil, nofun, nofun, ?_⟩
  · exact h.reach.serve (.retain origin) (Request.allowed_of_mem rfl hm) rfl
  · rw [h.held_eq, inHand, if_pos rfl]
    rfl
  · exact fun other ho found hfound => (line_addHolder hl).mpr (h.keeps other ho found hfound)
  · intro handle hh
    rw [List.mem_singleton] at hh
    subst hh
    exact ⟨line, (line_addHolder hl).mpr h.line, fun entry he => .inr (hline.node?_of_mem he)⟩

/-- A goal on the way has a handle already, and stays with the nodes before it. -/
theorem OnWay.succeeds (h : OnWay lenient before client origin current line way)
    (hne : current ≠ origin) (hline : Line before.tree origin line) :
    Finished before client [current] way := by
  refine ⟨h.reach, ?_, h.keeps, h.nodup, h.fresh, fun entry he => h.node?_of_mem he, ?_⟩
  · rw [h.held_eq, inHand, if_neg hne]
    rfl
  · intro handle hh
    rw [List.mem_singleton] at hh
    subst hh
    exact ⟨way ++ line, h.line, fun entry he =>
      (List.mem_append.mp he).imp_right hline.node?_of_mem⟩

/-- Children stay behind with the nodes on the way to them. -/
theorem OnWay.branches (h : OnWay lenient before client origin current line way)
    (hbefore : before.Reachable) (hline : Line before.tree origin line) {middle : Client}
    (hb : Branched client middle (way ++ line) made) (hne : made ≠ []) :
    ∃ after : Client, Target.dropBetween origin current middle.tree = .ok () after.tree ∧
      (∀ entry ∈ made, Line after.tree entry.1 (entry :: (way ++ line))) ∧
      Finished before after (made.map Prod.fst) (made ++ way) := by
  have hheld : middle.held = (made.map Prod.fst : List NodeId) +
      inHand origin current before.held := by
    rw [hb.held_eq, h.held_eq]
  obtain ⟨after, hd, hreach, hheld', hk⟩ := dropBetween_reachable hb.reach hheld
  have hlines : ∀ entry ∈ made, Line after.tree entry.1 (entry :: (way ++ line)) := by
    intro entry he
    refine hk entry.1 (Multiset.mem_add.mpr (.inl ?_)) _ (hb.line entry he)
    exact Multiset.mem_coe.mpr (List.mem_map_of_mem he)
  obtain ⟨first, hfirst⟩ := List.exists_mem_of_ne_nil made hne
  refine ⟨after, hd, hlines, hreach, hheld', fun other ho found hfound => ?_, ?_, ?_, ?_, ?_⟩
  · refine hk other (Multiset.mem_add.mpr (.inr ho)) found (hb.keeps ?_)
    exact h.keeps other ho found hfound
  · exact nodup_append_way hb.nodup h.nodup hlines
  · intro entry he
    rcases List.mem_append.mp he with he | he
    · exact fun hl => hb.fresh entry he (live_of_keeps hbefore.sound.books h.keeps hl)
    · exact h.fresh entry he
  · intro entry he
    rcases List.mem_append.mp he with he | he
    · exact (hlines entry he).node?_of_mem List.mem_cons_self
    · exact (hlines first hfirst).node?_of_mem (List.mem_cons_of_mem _ (List.mem_append_left _ he))
  · intro handle hh
    obtain ⟨entry, he, rfl⟩ := List.mem_map.mp hh
    refine ⟨_, hlines entry he, fun other ho => ?_⟩
    rcases List.mem_cons.mp ho with rfl | ho
    · exact .inl (List.mem_append_left way he)
    · exact (List.mem_append.mp ho).imp (List.mem_append_right made) hline.node?_of_mem

/-- A phase that completes leads to the next node on the way, and the one before is
given back. -/
theorem OnWay.goesOn (h : OnWay lenient before client origin current line way)
    (hbefore : before.Reachable) (horigin : origin ∈ before.held) {rest : List (NodeId × Node)}
    (heq : way ++ line = (current, node) :: rest)
    (hrun : (step lenient (machineOf (node :: nodesOf rest))).1 = .completed .running) :
    ∃ child made small, ∃ after : Client,
      transition lenient current client.tree = .ok (.stepped child) small ∧
      Target.dropBetween origin current small = .ok () after.tree ∧
      OnWay lenient before after origin child line ((child, made) :: way) := by
  have hhere := h.line
  rw [heq] at hhere
  obtain ⟨child, made, small, ht, hs, -⟩ := transition_running h.reach.sound.books hhere hrun
  let next := client.gain small child (.ran lenient)
  have hm := h.mem_held horigin
  have hnext : next.Reachable := by
    refine h.reach.serve (.transition lenient current) (Request.allowed_of_mem rfl hm) ?_
    simp only [Client.serve, ht, next]
  have hheld : next.held = {child} + inHand origin current before.held := by
    rw [← h.held_eq, Multiset.singleton_add]
    rfl
  obtain ⟨after, hd, hreach, hheld', hk⟩ := dropBetween_reachable hnext hheld
  have hfresh : ¬ Live before.tree child :=
    fun hl => hs.grown.fresh (live_of_keeps hbefore.sound.books h.keeps hl)
  have hne : child ≠ origin := by
    rintro rfl
    exact hfresh (hbefore.sound.books.live_of_mem horigin)
  refine ⟨child, made, small, after, ht, hd, hreach, ?_, ?_, ?_, fun _ => ?_, ?_⟩
  · rw [hheld', inHand, if_neg hne, Multiset.singleton_add]
  · intro other ho found hfound
    refine hk other (Multiset.mem_add.mpr (.inr ho)) found (hs.grown.keeps ?_)
    exact h.keeps other ho found hfound
  · intro entry he
    rcases List.mem_cons.mp he with rfl | he
    · exact hfresh
    · exact h.fresh entry he
  · by_cases hway : way = []
    · subst hway
      rw [List.nil_append] at heq
      rw [heq]
      exact hrun
    · exact h.ran hway
  · rw [List.cons_append, heq]
    exact hk child (Multiset.mem_add.mpr (.inl (Multiset.mem_singleton_self child))) _ hs.line

/-- An expansion that leaves nothing behind is settled. -/
theorem Finished.settled_nil {after : Client} (hbefore : before.Reachable)
    (h : Finished before after [] []) : Settled lenient before after id (.children []) := by
  have hbooked := h.booked hbefore
  exact ⟨hbooked, hbooked.live_eq, hbooked.holders_eq⟩

/-- An expansion that leaves children behind is settled. -/
theorem Finished.settled_children {after : Client} (hbefore : before.Reachable)
    (hline : Line before.tree id line) (hlength : made.length = 8)
    (hlines : ∀ entry ∈ made, Line after.tree entry.1 (entry :: (way ++ line)))
    (h : Finished before after (made.map Prod.fst) (made ++ way)) :
    Settled lenient before after id (.children (made.map Prod.fst)) := by
  have hnodup := h.nodup
  rw [List.map_append, List.nodup_append'] at hnodup
  obtain ⟨hkids, -, hdisjoint⟩ := hnodup
  have hlinks : ∀ kid ∈ made, ∀ other ∈ made ++ way, entryLinksTo kid.1 other = false := by
    intro kid hkid other ho
    rcases List.mem_append.mp ho with ho | ho
    · exact not_linked (hlines other ho) (hlines kid hkid) (Nat.le_refl _)
    · exact not_linked_of_mem (hlines kid hkid)
        (List.mem_cons_of_mem kid (List.mem_append_left line ho))
  have honce : ∀ kid ∈ made.map Prod.fst, HeldOnce after.tree kid := by
    intro kid hkid
    obtain ⟨entry, he, rfl⟩ := List.mem_map.mp hkid
    exact h.heldOnce hbefore (List.mem_append_left way he)
      (List.count_eq_one_of_mem hkids hkid) (hlinks entry he)
  have honly : ∀ entry ∈ way, OnlyLinked after.tree entry.1 := fun entry he =>
    h.onlyLinked hbefore (List.mem_append_right made he)
      fun hm => hdisjoint hm (List.mem_map_of_mem he)
  have hbooked := h.booked hbefore
  have hpos : 0 < made.length := by omega
  obtain ⟨first, others, rfl⟩ := List.exists_cons_of_length_pos hpos
  have hkidsLength : ((first :: others).map Prod.fst).length = 8 := by
    rw [List.length_map, hlength]
  exact ⟨hkidsLength, line, _, way, rfl, hline, hlines, hbooked, honce, honly⟩

/-- An expansion whose goal is the node itself is settled. -/
theorem Finished.settled_here {after : Client} (hbefore : before.Reachable)
    (hexit : transition lenient id before.tree = .ok .exited before.tree)
    (h : Finished before after [id] []) : Settled lenient before after id (.goal id) :=
  ⟨iff_of_true rfl hexit, fun _ => h.booked hbefore, fun hne => absurd rfl hne⟩

/-- An expansion that leaves a goal on the way behind is settled. -/
theorem Finished.settled_goal {after : Client} {goal : NodeId} (hbefore : before.Reachable)
    (hline : Line before.tree id line)
    (hgoal : Line after.tree goal ((goal, node) :: (way ++ line)))
    (hran : (step lenient (machineOf (nodesOf line))).1 = .completed .running)
    (h : Finished before after [goal] ((goal, node) :: way)) :
    Settled lenient before after id (.goal goal) := by
  have hne : goal ≠ id := by
    rintro rfl
    exact h.fresh _ List.mem_cons_self hline.live
  have hmoves : transition lenient id before.tree ≠ .ok .exited before.tree := by
    obtain ⟨top, rest, rfl, -⟩ := hline.eq_cons
    obtain ⟨child, _, small, ht, -⟩ := transition_running hbefore.sound.books hline hran
    rw [ht]
    nofun
  have hnodup := h.nodup
  rw [List.map_cons, List.nodup_cons] at hnodup
  have hlinks : ∀ other ∈ (goal, node) :: way, entryLinksTo goal other = false := by
    intro other ho
    refine not_linked_of_mem hgoal ?_
    rw [← List.cons_append]
    exact List.mem_append_left line ho
  refine ⟨iff_of_false hne hmoves, fun heq => absurd heq hne, fun _ => ?_⟩
  refine ⟨line, node, way, hline, hgoal, h.booked hbefore, ?_, fun entry he => ?_⟩
  · exact h.heldOnce hbefore List.mem_cons_self List.count_singleton_self hlinks
  · refine h.onlyLinked hbefore (List.mem_cons_of_mem _ he) fun hm => ?_
    have hway : entry.1 ∈ way.map Prod.fst := List.mem_map_of_mem he
    rw [List.mem_singleton.mp hm] at hway
    exact hnodup.1 hway

section Outcomes

variable {phases : Nat} {expansion : Expansion NodeId} {rest : List (NodeId × Node)}
variable (h : OnWay target.lenient before client origin current line way)
variable (hbefore : before.Reachable)
variable (heq : way ++ line = (current, node) :: rest)
variable (answers : target.expandFrom origin (phases + 1) current client.tree =
  .ok expansion tree')
include h hbefore heq answers

/-- Where a node on the way fails, the expansion is settled. -/
theorem OnWay.settled_failed {fault : Fault}
    (hout : (step target.lenient (machineOf (node :: nodesOf rest))).1 = .failed fault) :
    ∃ after, after.tree = tree' ∧ Settled target.lenient before after origin expansion := by
  have ht : transition target.lenient current client.tree = .ok (.failed fault) client.tree :=
    transition_still (heq ▸ h.line) (by rw [hout]; rfl)
  obtain ⟨after, hd, hfinished⟩ := h.dies
  simp only [Target.expandFrom, bind, EStateM.bind, ht, hd, pure, EStateM.pure] at answers
  cases answers
  exact ⟨after, rfl, hfinished.settled_nil hbefore⟩

/-- Where a node on the way asks for a cell, the expansion is settled. -/
theorem OnWay.settled_needs (horigin : origin ∈ before.held)
    (hline : Line before.tree origin line) {address : Word}
    (hout : (step target.lenient (machineOf (node :: nodesOf rest))).1 =
      .needsDecision address) :
    ∃ after, after.tree = tree' ∧ Settled target.lenient before after origin expansion := by
  have hhere := heq ▸ h.line
  have ht : transition target.lenient current client.tree =
      .ok (.needsDecision address) client.tree := transition_still hhere (by rw [hout]; rfl)
  obtain ⟨made, middle, hlength, hb, hbranched⟩ := decideAll_reachable h.reach
    (h.mem_held horigin) hhere address Instruction.all
  rw [← heq] at hbranched
  have hne : made ≠ [] := by
    rintro rfl
    cases hlength
  obtain ⟨after, hd, hlines, hfinished⟩ := h.branches hbefore hline hbranched hne
  simp only [Target.expandFrom, bind, EStateM.bind, ht, Target.branch, hb, hd, pure,
    EStateM.pure] at answers
  cases answers
  exact ⟨after, rfl, hfinished.settled_children hbefore hline hlength hlines⟩

/-- Where a node on the way exits, the expansion is settled. -/
theorem OnWay.settled_exited (horigin : origin ∈ before.held)
    (hline : Line before.tree origin line)
    (hout : (step target.lenient (machineOf (node :: nodesOf rest))).1 = .completed .exited) :
    ∃ after, after.tree = tree' ∧ Settled target.lenient before after origin expansion := by
  have hhere := heq ▸ h.line
  have hn : client.tree.node? current = .ok node := hhere.node?_of_mem List.mem_cons_self
  have ht : transition target.lenient current client.tree = .ok .exited client.tree :=
    transition_still hhere (by rw [hout]; rfl)
  simp only [Target.expandFrom, bind, EStateM.bind, ht, StateTree.get, observe, hn, pure]
    at answers
  by_cases hmet : target.isMet node.output = true
  · rw [if_pos hmet] at answers
    by_cases hc : current = origin
    · obtain rfl := (h.eq_origin_iff hline).mp hc
      subst hc
      obtain ⟨after, hretain, hfinished⟩ := h.succeeds_here horigin hline
      rw [if_pos rfl] at answers
      simp only [EStateM.bind, hretain, EStateM.pure] at answers
      cases answers
      rw [List.nil_append] at heq
      have hexit : transition target.lenient current before.tree = .ok .exited before.tree :=
        transition_still (heq ▸ hline) (by rw [hout]; rfl)
      exact ⟨after, rfl, hfinished.settled_here hbefore hexit⟩
    · obtain ⟨entry, above, rfl⟩ := List.exists_cons_of_ne_nil (mt (h.eq_origin_iff hline).mpr hc)
      rw [if_neg hc] at answers
      simp only [EStateM.pure] at answers
      cases answers
      cases heq
      exact ⟨client, rfl, (h.succeeds hc hline).settled_goal hbefore hline h.line
        (h.ran (List.cons_ne_nil _ _))⟩
  · rw [if_neg hmet] at answers
    obtain ⟨after, hd, hfinished⟩ := h.dies
    simp only [EStateM.bind, hd, EStateM.pure] at answers
    cases answers
    exact ⟨after, rfl, hfinished.settled_nil hbefore⟩

end Outcomes

/-- An expansion that answers is settled, wherever on the way it is. The induction is
on the number of phases. -/
theorem OnWay.expandFrom_settled {phases : Nat} {expansion : Expansion NodeId}
    (h : OnWay target.lenient before client origin current line way)
    (hbefore : before.Reachable) (horigin : origin ∈ before.held)
    (hline : Line before.tree origin line)
    (answers : target.expandFrom origin phases current client.tree = .ok expansion tree') :
    ∃ after, after.tree = tree' ∧ Settled target.lenient before after origin expansion := by
  induction phases generalizing client current way with
  | zero => cases answers
  | succ phases ih =>
    obtain ⟨node, rest, heq, -⟩ := h.line.eq_cons
    cases hout : (step target.lenient (machineOf (node :: nodesOf rest))).1 with
    | completed status =>
      cases status with
      | running =>
        obtain ⟨child, made, small, middle, ht, hd, hnext⟩ := h.goesOn hbefore horigin heq hout
        have hn : middle.tree.node? child = .ok made := hnext.node?_of_mem List.mem_cons_self
        simp only [Target.expandFrom, bind, EStateM.bind, ht, hd, StateTree.get, observe, hn]
          at answers
        by_cases htrack : target.onTrack made.output = true
        · rw [if_pos htrack] at answers
          exact ih hnext answers
        · rw [if_neg htrack] at answers
          obtain ⟨after, hd', hfinished⟩ := hnext.dies
          simp only [EStateM.bind, hd', pure, EStateM.pure] at answers
          cases answers
          exact ⟨after, rfl, hfinished.settled_nil hbefore⟩
      | exited => exact h.settled_exited hbefore heq answers horigin hline hout
    | needsDecision address => exact h.settled_needs hbefore heq answers horigin hline hout
    | failed fault => exact h.settled_failed hbefore heq answers hout
    | overflowed =>
      have hsearching := h.reach.sound.searching (heq ▸ h.line)
      exact absurd hout (hsearching.step target.lenient).2.1

end Expanding

/-- Expanding a node that a client holds keeps exact books, wherever the node comes
from. If the expansion answers, the client has used handles as it may, and every live
node stands for the same state as before. Where there are no children, every slot is
held as before. Where there are children, the client holds each of them once more, and
what else is new lies between the node and its children and is held by links only. A
goal is held once more too, and it is the node itself if that exits at once. -/
theorem expansion_keeps_books {before : Client} (hbefore : before.Reachable) (hm : id ∈ before.held)
    (target : Target) {phases : Nat} {expansion : Expansion NodeId}
    (answers : target.expandFrom id phases id before.tree = .ok expansion tree') :
    ∃ after : Client, after.tree = tree' ∧ Settled target.lenient before after id expansion := by
  obtain ⟨node, rest, hline⟩ := hbefore.sound.books.line_of_mem hm
  exact (onWay_start hbefore hline).expandFrom_settled hbefore hm hline answers

/-- A client decides a no-op at the first cell below a root and expands the decided
node. The instruction runs in two phases, and their nodes lie between it and its
children, which decide the second cell. -/
theorem expansion_keeps_books_of_no_op :
    ∃ before after : Client, before.Reachable ∧ before.held = {1, 0} ∧
      Target.expandFrom ⟨[72, 105], true, 0⟩ 1 3 1 before.tree =
        .ok (.children [4, 5, 6, 7, 8, 9, 10, 11]) after.tree ∧
      Settled true before after 1 (.children [4, 5, 6, 7, 8, 9, 10, 11]) := by
  let decided : Node := ⟨.initial, [], some ⟨0, encode 0 .noOp, .decision⟩, some 0, 1⟩
  have answers : ∃ tree', Target.expandFrom ⟨[72, 105], true, 0⟩ 1 3 1
      ⟨#[⟨.root, 2⟩, ⟨decided, 1⟩], [], 2⟩ =
        .ok (.children [4, 5, 6, 7, 8, 9, 10, 11]) tree' := by
    refine ⟨?_, ?_⟩
    rotate_left
    · cbv
      rfl
  obtain ⟨tree', answers⟩ := answers
  have hroot := Client.Reachable.start.serve .root (fun id uses => by cases uses) rfl
  have hdecided := hroot.serve (.decide 0 0 .noOp)
    (Request.allowed_of_mem rfl (show 0 ∈ _ by decide)) rfl
  obtain ⟨after, rfl, hsettled⟩ :=
    expansion_keeps_books hdecided (show 1 ∈ _ by decide) ⟨[72, 105], true, 0⟩ answers
  exact ⟨_, after, hdecided, by decide, answers, hsettled⟩

end TernarySynth.Proofs.ExpansionBooks
