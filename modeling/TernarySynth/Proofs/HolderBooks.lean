import Mathlib.Data.Multiset.Count
import TernarySynth.Proofs.TreeLine

/-!
# The books of a tree

A tree keeps its books when every slot counts exactly its holders: the handles
in use outside the tree and the nodes that link to it. The handles outside are
a multiset, so each operation is one equation on it: a link and a second handle
add one, a release takes one away, however far it reaches up. Free slots are
the ones without holders, and from every live node a line leads to a root.
-/

namespace TernarySynth.Proofs.HolderBooks

open StateTree TreeLine

/-- Whether a slot links to a node. -/
def linksTo (id : NodeId) (slot : Slot) : Bool := slot.node.parent == some id

/-- How many slots link to a node. -/
def linkCount (tree : StateTree) (id : NodeId) : Nat := tree.slots.countP (linksTo id)

/-- Whether a slot is held. -/
def isHeld (slot : Slot) : Bool := slot.holders != 0

/-- The slots of a tree are told apart by their counts, whoever holds them: the free ones
are those without holders, and the others are counted. -/
structure Counted (tree : StateTree) : Prop where
  /-- No slot is free twice. -/
  free_nodup : tree.free.Nodup
  /-- The free slots are those without holders. -/
  mem_free : ∀ id : NodeId, id ∈ tree.free ↔
    ∃ slot, tree.slots[id]? = some slot ∧ slot.holders = 0
  /-- A free slot links to nothing. -/
  free_root : ∀ (id : NodeId) (slot : Slot), tree.slots[id]? = some slot →
    slot.holders = 0 → slot.node = .root
  /-- The other slots are counted. -/
  live_eq : tree.live = tree.slots.countP isHeld

/-- The handles in use outside a tree are `held`, and the tree counts them. -/
structure Books (tree : StateTree) (held : Multiset NodeId) : Prop where
  /-- Holders are handles in use and links from other nodes. -/
  holders_eq : ∀ id, tree.holders id = held.count id + linkCount tree id
  /-- No slot is free twice. -/
  free_nodup : tree.free.Nodup
  /-- The free slots are those without holders. -/
  mem_free : ∀ id : NodeId, id ∈ tree.free ↔
    ∃ slot, tree.slots[id]? = some slot ∧ slot.holders = 0
  /-- A free slot links to nothing. -/
  free_root : ∀ (id : NodeId) (slot : Slot), tree.slots[id]? = some slot →
    slot.holders = 0 → slot.node = .root
  /-- Live nodes are counted. -/
  live_eq : tree.live = tree.slots.countP isHeld
  /-- Every live node has a line. -/
  rooted : ∀ id, Live tree id → ∃ line, Line tree id line

variable {tree : StateTree} {held : Multiset NodeId} {id : NodeId}

/-- A tree that keeps its books counts its slots. -/
theorem Books.counted (h : Books tree held) : Counted tree :=
  ⟨h.free_nodup, h.mem_free, h.free_root, h.live_eq⟩

/-- A tree without nodes counts its slots. -/
theorem counted_empty : Counted StateTree.empty := by
  refine ⟨List.nodup_nil, fun id => ?_, fun id slot hs => ?_, rfl⟩
  · simp only [StateTree.empty, List.not_mem_nil, List.getElem?_toArray, List.getElem?_nil,
      reduceCtorEq, false_and, exists_false]
  · simp only [StateTree.empty, List.getElem?_toArray, List.getElem?_nil, reduceCtorEq] at hs

/-- A tree without nodes keeps its books. -/
theorem books_empty : Books StateTree.empty 0 := by
  have hc := counted_empty
  refine ⟨fun id => ?_, hc.free_nodup, hc.mem_free, hc.free_root, hc.live_eq, fun id hl => ?_⟩
  · simp only [StateTree.holders, StateTree.empty, linkCount, Multiset.count_zero,
      List.getElem?_toArray, List.getElem?_nil, Array.countP_empty]
  · exact absurd rfl hl

/-- The free slots are those of the tree that have no holders. -/
theorem Counted.mem_free_iff (h : Counted tree) (id : NodeId) :
    id ∈ tree.free ↔ id < tree.slots.size ∧ tree.holders id = 0 := by
  rw [h.mem_free, StateTree.holders]
  constructor
  · rintro ⟨slot, hs, hz⟩
    rw [hs]
    exact ⟨(Array.getElem?_eq_some_iff.mp hs).1, hz⟩
  · rintro ⟨hlt, hz⟩
    have hs := Array.getElem?_eq_getElem hlt
    rw [hs] at hz
    exact ⟨_, hs, hz⟩

/-- The number of live nodes is positive while there is one. -/
theorem Counted.live_pos (h : Counted tree) (hl : Live tree id) : 0 < tree.live := by
  obtain ⟨node, holders, hs⟩ := hl.slot
  rw [h.live_eq]
  exact Array.countP_pos_iff.mpr ⟨_, Array.mem_of_getElem? hs, rfl⟩

/-- Every handle in use is live. -/
theorem Books.live_of_mem (h : Books tree held) (hm : id ∈ held) : Live tree id := by
  have hc := Multiset.count_pos.mpr hm
  have he := h.holders_eq id
  unfold Live
  omega

/-- The line of a handle in use begins with its node. -/
theorem Books.line_of_mem (h : Books tree held) (hm : id ∈ held) :
    ∃ node line, Line tree id ((id, node) :: line) := by
  obtain ⟨line, hline⟩ := h.rooted id (h.live_of_mem hm)
  obtain ⟨node, rest, rfl, -⟩ := hline.eq_cons
  exact ⟨node, rest, hline⟩

/-- A node that a node links to is live. -/
theorem Books.live_of_link (h : Books tree held) {slot : Slot} (hs : slot ∈ tree.slots)
    (hl : slot.node.parent = some id) : Live tree id := by
  have hc : 0 < linkCount tree id :=
    Array.countP_pos_iff.mpr ⟨slot, hs, by rw [linksTo, hl, beq_self_eq_true]⟩
  have he := h.holders_eq id
  unfold Live
  omega

section AddHolder

/-- A new holder changes the count of its slot only. -/
theorem slots_addHolder (tree : StateTree) (id other : NodeId) :
    (tree.addHolder id).slots[other]? =
      if id = other then tree.slots[other]?.map fun slot => ⟨slot.node, slot.holders + 1⟩
      else tree.slots[other]? :=
  Array.getElem?_modify

/-- A new holder of a live node leaves all nodes in place. -/
theorem node?_addHolder (hl : Live tree id) (other : NodeId) :
    (tree.addHolder id).node? other = tree.node? other := by
  by_cases ho : id = other
  · subst ho
    obtain ⟨node, holders, hs⟩ := hl.slot
    simp only [StateTree.node?, slots_addHolder, if_true, hs, Option.map_some,
      Nat.add_one_ne_zero, if_false]
  · simp only [StateTree.node?, slots_addHolder, if_neg ho]

/-- The live nodes stay the same when a live node gains a holder. -/
theorem live_addHolder (hl : Live tree id) (other : NodeId) :
    Live (tree.addHolder id) other ↔ Live tree other := by
  simp only [live_iff, node?_addHolder hl]

/-- Lines stay the same when a live node gains a holder. -/
theorem line_addHolder (hl : Live tree id) {other : NodeId} {line : List (NodeId × Node)} :
    Line (tree.addHolder id) other line ↔ Line tree other line := by
  constructor
  · intro h
    refine h.frame fun entry he => ?_
    rw [← node?_addHolder hl]
    exact h.node?_of_mem he
  · intro h
    refine h.frame fun entry he => ?_
    rw [node?_addHolder hl]
    exact h.node?_of_mem he

/-- A reading of slots that does not see the count of a live node is the same
for all slots after that node has gained a holder. -/
theorem countP_addHolder (hl : Live tree id) {p : Slot → Bool}
    (hp : ∀ node holders, p ⟨node, holders + 1 + 1⟩ = p ⟨node, holders + 1⟩) :
    (tree.addHolder id).slots.countP p = tree.slots.countP p := by
  have hm : (tree.addHolder id).slots.map p = tree.slots.map p := by
    apply Array.ext_getElem?
    intro i
    rw [Array.getElem?_map, Array.getElem?_map, slots_addHolder]
    by_cases hi : id = i
    · subst hi
      obtain ⟨node, holders, hs⟩ := hl.slot
      simp only [if_true, hs, Option.map_some, hp]
    · rw [if_neg hi]
  have hc := congrArg (Array.countP fun b => b) hm
  rwa [Array.countP_map, Array.countP_map] at hc

/-- A new holder is one holder more. -/
theorem holders_addHolder (hl : Live tree id) (other : NodeId) :
    (tree.addHolder id).holders other = tree.holders other + if id = other then 1 else 0 := by
  simp only [StateTree.holders, slots_addHolder]
  by_cases ho : id = other
  · subst ho
    obtain ⟨node, holders, hs⟩ := hl.slot
    simp only [if_true, hs, Option.map_some]
  · simp only [if_neg ho, Nat.add_zero]

/-- The slots without holders stay the same when a live node gains a holder. -/
theorem slot_addHolder_free (hl : Live tree id) (other : NodeId) {slot : Slot}
    (hz : slot.holders = 0) :
    (tree.addHolder id).slots[other]? = some slot ↔ tree.slots[other]? = some slot := by
  rw [slots_addHolder]
  by_cases ho : id = other
  · subst ho
    obtain ⟨node, holders, hs⟩ := hl.slot
    simp only [if_true, hs, Option.map_some, Option.some.injEq]
    constructor <;> rintro rfl <;> cases hz
  · rw [if_neg ho]

/-- The slots are counted as before when a live node gains a holder. -/
theorem counted_addHolder (hl : Live tree id) : Counted (tree.addHolder id) ↔ Counted tree := by
  have hheld : (tree.addHolder id).slots.countP isHeld = tree.slots.countP isHeld :=
    countP_addHolder hl fun _ _ => rfl
  have hfree : ∀ other : NodeId,
      (∃ slot : Slot, (tree.addHolder id).slots[other]? = some slot ∧ slot.holders = 0) ↔
        ∃ slot : Slot, tree.slots[other]? = some slot ∧ slot.holders = 0 := fun other =>
    exists_congr fun slot => and_congr_left (slot_addHolder_free hl other)
  constructor
  · intro h
    refine ⟨h.free_nodup, fun other => (h.mem_free other).trans (hfree other), ?_,
      h.live_eq.trans hheld⟩
    intro other slot hs hz
    exact h.free_root other slot ((slot_addHolder_free hl other hz).mpr hs) hz
  · intro h
    refine ⟨h.free_nodup, fun other => (h.mem_free other).trans (hfree other).symm, ?_,
      h.live_eq.trans hheld.symm⟩
    intro other slot hs hz
    exact h.free_root other slot ((slot_addHolder_free hl other hz).mp hs) hz

/-- A new holder of a live node is a new handle in use, and the other way
round: where a live node loses a holder, a handle has gone out of use. -/
theorem books_addHolder (hl : Live tree id) :
    Books (tree.addHolder id) (id ::ₘ held) ↔ Books tree held := by
  have hlinks : ∀ other, linkCount (tree.addHolder id) other = linkCount tree other :=
    fun other => countP_addHolder hl fun _ _ => rfl
  constructor
  · intro h
    have hc := (counted_addHolder hl).mp h.counted
    refine ⟨fun other => ?_, hc.free_nodup, hc.mem_free, hc.free_root, hc.live_eq,
      fun other ho => ?_⟩
    · have he := h.holders_eq other
      rw [holders_addHolder hl, hlinks, Multiset.count_cons] at he
      by_cases ho : id = other
      · simp only [ho, if_true] at he
        omega
      · simp only [if_neg ho, if_neg (Ne.symm ho)] at he
        omega
    · obtain ⟨line, hline⟩ := h.rooted other ((live_addHolder hl other).mpr ho)
      exact ⟨line, (line_addHolder hl).mp hline⟩
  · intro h
    have hc := (counted_addHolder hl).mpr h.counted
    refine ⟨fun other => ?_, hc.free_nodup, hc.mem_free, hc.free_root, hc.live_eq,
      fun other ho => ?_⟩
    · rw [holders_addHolder hl, hlinks, Multiset.count_cons, h.holders_eq other]
      by_cases ho : id = other
      · simp only [ho, if_true]
        omega
      · simp only [if_neg ho, if_neg (Ne.symm ho)]
        omega
    · obtain ⟨line, hline⟩ := h.rooted other ((live_addHolder hl other).mp ho)
      exact ⟨line, (line_addHolder hl).mpr hline⟩

end AddHolder

section Place

/-- Two trees of which `big` has a node in a slot that is free in `small`. -/
structure Placed (small big : StateTree) (id : NodeId) (node : Node) : Prop where
  /-- The trees have the same slots but for this one, which has one holder. -/
  slots_eq : ∀ other : NodeId, big.slots[other]? =
    if id = other then some ⟨node, 1⟩ else small.slots[other]?
  /-- The slot is free in the smaller tree, or not there at all. -/
  was_free : ∀ slot, small.slots[id]? = some slot → slot = ⟨.root, 0⟩
  /-- Readings that pass over free slots count one slot more at most. -/
  countP_eq : ∀ p : Slot → Bool, p ⟨.root, 0⟩ = false →
    big.slots.countP p = small.slots.countP p + if p ⟨node, 1⟩ then 1 else 0
  /-- One node more is live. -/
  live_eq : big.live = small.live + 1
  /-- The slot was the next free one, or there was none. -/
  free_eq : small.free = id :: big.free ∨
    small.slots[id]? = none ∧ small.free = [] ∧ big.free = []

variable {small big : StateTree} {node : Node}

/-- Inserting a node places it. -/
theorem Counted.insert_placed (h : Counted tree) (node : Node) :
    Placed tree (tree.insert node).2 (tree.insert node).1 node := by
  obtain ⟨slots, free, live⟩ := tree
  cases free with
  | nil =>
    have hn : slots[slots.size]? = none := Array.getElem?_eq_none (Nat.le_refl _)
    refine ⟨fun other => ?_, fun slot hs => ?_, fun p _ => ?_, rfl, .inr ⟨hn, rfl, rfl⟩⟩
    · simp only [StateTree.insert, Array.getElem?_push]
      by_cases ho : slots.size = other
      · simp only [ho, if_true]
      · rw [if_neg (Ne.symm ho)]
        exact (if_neg ho).symm
    · simp only [StateTree.insert] at hs
      rw [hn] at hs
      cases hs
    · simp only [StateTree.insert, Array.countP_push]
  | cons id free =>
    obtain ⟨slot, hs, hz⟩ := (h.mem_free id).mp List.mem_cons_self
    have hslot : slot = ⟨.root, 0⟩ := by
      have hr := h.free_root id slot hs hz
      cases slot
      cases hz
      cases hr
      rfl
    subst hslot
    obtain ⟨hlt, hget⟩ := Array.getElem?_eq_some_iff.mp hs
    refine ⟨fun other => ?_, fun slot hs' => ?_, fun p hp => ?_, rfl, .inl rfl⟩
    · simp only [StateTree.insert, Array.getElem?_setIfInBounds]
      by_cases ho : id = other
      · subst ho
        simp only [if_true, if_pos hlt]
      · rw [if_neg ho]
        exact (if_neg ho).symm
    · simp only [StateTree.insert] at hs'
      exact (Option.some.inj (hs.symm.trans hs')).symm
    · simp only [StateTree.insert, Array.setIfInBounds, dif_pos hlt, Array.countP_set, hget, hp,
        Bool.false_eq_true, if_false, Nat.sub_zero]

/-- Nobody holds the slot in the smaller tree. -/
theorem Placed.fresh (h : Placed small big id node) : ¬ Live small id := by
  intro hl
  obtain ⟨_, _, hs⟩ := hl.slot
  cases h.was_free _ hs

/-- The placed node is the node of its handle. -/
theorem Placed.node?_self (h : Placed small big id node) : big.node? id = .ok node :=
  node?_eq_ok.mpr ⟨1, by rw [h.slots_eq, if_pos rfl], Nat.one_ne_zero⟩

/-- The nodes of all other handles are the same. -/
theorem Placed.node?_other (h : Placed small big id node) {other : NodeId} (ho : id ≠ other) :
    big.node? other = small.node? other := by
  simp only [StateTree.node?, h.slots_eq, if_neg ho]

/-- Every live node stays live. -/
theorem Placed.live_of_live (h : Placed small big id node) {other : NodeId}
    (hl : Live small other) : Live big other := by
  have ho : id ≠ other := fun ho => h.fresh (ho ▸ hl)
  rw [live_iff] at hl ⊢
  rwa [h.node?_other ho]

/-- Lines stay lines when a node is placed. -/
theorem Placed.keeps (h : Placed small big id node) {other : NodeId}
    {line : List (NodeId × Node)} (hline : Line small other line) : Line big other line := by
  refine hline.frame fun entry he => ?_
  have hn := hline.node?_of_mem he
  have ho : id ≠ entry.1 := by
    rintro rfl
    exact h.fresh (live_iff.mpr ⟨_, hn⟩)
  rw [h.node?_other ho]
  exact hn

/-- The holders of all other slots are the same. -/
theorem Placed.holders_eq (h : Placed small big id node) (other : NodeId) :
    big.holders other = if id = other then 1 else small.holders other := by
  simp only [StateTree.holders, h.slots_eq]
  by_cases ho : id = other
  · simp only [if_pos ho]
  · simp only [if_neg ho]

/-- The link of the placed node is counted. -/
theorem Placed.linkCount_eq (h : Placed small big id node) (other : NodeId) :
    linkCount big other =
      linkCount small other + if node.parent = some other then 1 else 0 := by
  unfold linkCount
  rw [h.countP_eq _ rfl]
  simp only [linksTo, beq_iff_eq]

/-- The handles in use, and besides them the one that a link to a parent takes
the place of. -/
def withLink : Option NodeId → Multiset NodeId → Multiset NodeId
  | some parent, held => parent ::ₘ held
  | none, held => held

/-- A link takes the place of one handle. -/
theorem count_withLink (parent : Option NodeId) (held : Multiset NodeId) (other : NodeId) :
    (withLink parent held).count other = held.count other + if parent = some other then 1 else 0 := by
  cases parent with
  | none => rfl
  | some parent =>
    rw [withLink, Multiset.count_cons]
    by_cases ho : other = parent
    · simp only [ho, if_true]
    · simp only [if_neg ho, Option.some.injEq, if_neg (Ne.symm ho)]

/-- The line of the placed node, if its parent has one. -/
theorem Placed.line_self (h : Placed small big id node)
    (hp : ∀ parent, node.parent = some parent → ∃ line, Line small parent line) :
    ∃ line, Line big id line := by
  cases hn : node.parent with
  | none => exact ⟨_, .root h.node?_self hn⟩
  | some parent =>
    obtain ⟨line, hline⟩ := hp parent hn
    exact ⟨_, .child h.node?_self hn (h.keeps hline)⟩

/-- The slots are counted after a node has been placed. -/
theorem Placed.counted (h : Placed small big id node) (hc : Counted small) : Counted big := by
  have hother : ∀ other, id ≠ other → (other ∈ big.free ↔ other ∈ small.free) := by
    intro other ho
    rcases h.free_eq with he | ⟨-, he, he'⟩
    · rw [he, List.mem_cons, or_iff_right (Ne.symm ho)]
    · rw [he, he']
  have hself : big.free.Nodup ∧ id ∉ big.free := by
    have hn := hc.free_nodup
    rcases h.free_eq with he | ⟨-, -, he⟩
    · rw [he, List.nodup_cons] at hn
      exact ⟨hn.2, hn.1⟩
    · rw [he]
      exact ⟨List.nodup_nil, List.not_mem_nil⟩
  refine ⟨hself.1, fun other => ?_, fun other slot hs hz => ?_, ?_⟩
  · rw [h.slots_eq]
    by_cases ho : id = other
    · subst ho
      simp only [if_true, Option.some.injEq, exists_eq_left', Nat.one_ne_zero, iff_false]
      exact hself.2
    · rw [if_neg ho, hother other ho, hc.mem_free other]
  · rw [h.slots_eq] at hs
    by_cases ho : id = other
    · rw [if_pos ho] at hs
      cases hs
      cases hz
    · rw [if_neg ho] at hs
      exact hc.free_root other slot hs hz
  · rw [h.live_eq, hc.live_eq, h.countP_eq _ rfl]
    rfl

/-- So they are after it has been taken away again. -/
theorem Placed.counted_small (h : Placed small big id node) (hc : Counted big)
    (hfree : small.free = id :: big.free) (hroot : small.slots[id]? = some ⟨.root, 0⟩) :
    Counted small := by
  refine ⟨?_, fun other => ?_, fun other slot hs hz => ?_, ?_⟩
  · rw [hfree, List.nodup_cons]
    refine ⟨fun hm => ?_, hc.free_nodup⟩
    obtain ⟨slot, hs, hz⟩ := (hc.mem_free id).mp hm
    rw [h.slots_eq, if_pos rfl] at hs
    cases hs
    cases hz
  · rw [hfree, List.mem_cons, hc.mem_free other, h.slots_eq]
    by_cases ho : id = other
    · subst ho
      simp only [true_or, true_iff]
      exact ⟨_, hroot, rfl⟩
    · simp only [Ne.symm ho, false_or, if_neg ho]
  · by_cases ho : id = other
    · subst ho
      rw [hroot] at hs
      cases hs
      rfl
    · refine hc.free_root other slot ?_ hz
      rwa [h.slots_eq, if_neg ho]
  · have he := hc.live_eq
    rw [h.live_eq, h.countP_eq _ rfl] at he
    exact Nat.add_right_cancel he

/-- Placing a node keeps the books: the handle that its link takes the place of
goes, and the handle of the new node comes. -/
theorem Placed.books (h : Placed small big id node) (hb : Books small (withLink node.parent held)) :
    Books big (id ::ₘ held) := by
  have hparent : ∀ parent, node.parent = some parent → Live small parent := by
    intro parent hn
    refine hb.live_of_mem ?_
    rw [hn, withLink]
    exact Multiset.mem_cons_self _ _
  have hc := h.counted hb.counted
  refine ⟨fun other => ?_, hc.free_nodup, hc.mem_free, hc.free_root, hc.live_eq,
    fun other hl => ?_⟩
  · have he := hb.holders_eq other
    rw [count_withLink] at he
    rw [h.holders_eq, h.linkCount_eq, Multiset.count_cons]
    by_cases ho : id = other
    · subst ho
      have hz : small.holders id = 0 := by
        by_contra hz
        exact h.fresh hz
      simp only [if_true]
      omega
    · simp only [if_neg ho, if_neg (Ne.symm ho)]
      omega
  · by_cases ho : id = other
    · subst ho
      exact h.line_self fun parent hn => hb.rooted parent (hparent parent hn)
    · have hl' : Live small other := by
        rw [live_iff] at hl ⊢
        rwa [← h.node?_other ho]
      obtain ⟨line, hline⟩ := hb.rooted other hl'
      exact ⟨line, h.keeps hline⟩

/-- Where the only holder of the placed node is a handle, nothing links to it. -/
theorem Placed.unlinked (h : Placed small big id node) (hb : Books big (id ::ₘ held)) :
    held.count id = 0 ∧ linkCount big id = 0 := by
  have he := hb.holders_eq id
  rw [h.holders_eq, if_pos rfl, Multiset.count_cons_self] at he
  omega

/-- Lines from other nodes do not pass through a node that nothing links to. -/
theorem Placed.line_other (h : Placed small big id node) (hz : linkCount big id = 0)
    {other : NodeId} {line : List (NodeId × Node)} (hline : Line big other line)
    (ho : id ≠ other) : Line small other line := by
  induction hline with
  | root here top => exact .root (by rwa [← h.node?_other ho]) top
  | @child other parent node line here link above ih =>
    refine .child (by rwa [← h.node?_other ho]) link (ih ?_)
    rintro rfl
    obtain ⟨holders, hs, -⟩ := node?_eq_ok.mp here
    have hm := Array.mem_of_getElem? hs
    refine absurd (Array.countP_eq_zero.mp hz _ hm) (not_not.mpr ?_)
    rw [linksTo, link, beq_self_eq_true]

/-- Taking a placed node away again keeps the books: its handle goes, and its
link becomes a handle that has yet to be given back. -/
theorem Placed.books_small (h : Placed small big id node) (hb : Books big (id ::ₘ held))
    (hfree : small.free = id :: big.free) (hroot : small.slots[id]? = some ⟨.root, 0⟩) :
    Books small (withLink node.parent held) := by
  obtain ⟨hcount, hlinks⟩ := h.unlinked hb
  have hlinks' := h.linkCount_eq id
  rw [hlinks] at hlinks'
  have hparent : node.parent ≠ some id := by
    intro hp
    rw [if_pos hp] at hlinks'
    omega
  have hc := h.counted_small hb.counted hfree hroot
  refine ⟨fun other => ?_, hc.free_nodup, hc.mem_free, hc.free_root, hc.live_eq,
    fun other hl => ?_⟩
  · have he := hb.holders_eq other
    rw [h.holders_eq, h.linkCount_eq, Multiset.count_cons] at he
    rw [count_withLink]
    by_cases ho : id = other
    · subst ho
      rw [if_neg hparent] at hlinks' ⊢
      have hz : small.holders id = 0 := by
        by_contra hz
        exact h.fresh hz
      omega
    · simp only [if_neg ho, if_neg (Ne.symm ho)] at he
      omega
  · have ho : id ≠ other := fun ho => h.fresh (ho ▸ hl)
    obtain ⟨line, hline⟩ := hb.rooted other (h.live_of_live hl)
    exact ⟨line, h.line_other hlinks hline ho⟩

/-- Lines of the bigger tree are lines of the smaller one, but for the placed
node. -/
theorem Placed.old (h : Placed small big id node) (hb : Books small held) {other : NodeId}
    {line : List (NodeId × Node)} (hline : Line big other line) :
    other = id ∨ Line small other line := by
  by_cases ho : id = other
  · exact .inl ho.symm
  · have hl : Live small other := by
      have hl := hline.live
      rw [live_iff] at hl ⊢
      rwa [← h.node?_other ho]
    obtain ⟨line', hline'⟩ := hb.rooted other hl
    rw [hline.unique (h.keeps hline')]
    exact .inr hline'

end Place

section Operations

/-- What creating a node does to a tree. -/
structure Grown (tree tree' : StateTree) (id : NodeId) (node : Node) : Prop where
  /-- The handle was not in use. -/
  fresh : ¬ Live tree id
  /-- The node is the node of the handle. -/
  here : tree'.node? id = .ok node
  /-- Every other node keeps its line. -/
  keeps : ∀ {other line}, Line tree other line → Line tree' other line
  /-- No other line comes up. -/
  old : ∀ {other line}, Line tree' other line → other = id ∨ Line tree other line

/-- Creating a node below a live one succeeds and keeps the books. -/
theorem Books.link (h : Books tree held) {node : Node}
    (hp : ∀ parent, node.parent = some parent → Live tree parent) :
    ∃ id tree', link node tree = .ok id tree' ∧ Books tree' (id ::ₘ held) ∧
      Grown tree tree' id node := by
  cases hn : node.parent with
  | none =>
    have hplaced := h.counted.insert_placed node
    refine ⟨_, _, ?_, hplaced.books (by rwa [hn]), hplaced.fresh, hplaced.node?_self,
      hplaced.keeps, hplaced.old h⟩
    simp only [StateTree.link, hn]
  | some parent =>
    have hl := hp parent hn
    have h' := (books_addHolder hl).mpr h
    have hplaced := h'.counted.insert_placed node
    refine ⟨_, _, ?_, hplaced.books (by rwa [hn]), ?_, hplaced.node?_self,
      fun hline => hplaced.keeps ((line_addHolder hl).mpr hline),
      fun hline => (hplaced.old h' hline).imp_right (line_addHolder hl).mp⟩
    · simp only [StateTree.link, hn]
    · rw [← live_addHolder hl]
      exact hplaced.fresh

variable {slots : Array Slot} {node : Node} {count : Nat}

/-- A holder that is not the last one is taken away. -/
theorem releaseFrom_shared (free : List NodeId) (live : Nat)
    (hs : slots[id]? = some ⟨node, count + 1⟩) (hc : count ≠ 0) :
    StateTree.releaseFrom ⟨slots, free, live⟩ id =
      .ok () ⟨slots.setIfInBounds id ⟨node, count⟩, free, live⟩ := by
  rw [StateTree.releaseFrom, hs]
  simp only [ne_eq, hc, not_false_eq_true, if_true]

/-- With the last holder the slot becomes free, and the parent loses a holder. -/
theorem releaseFrom_last (free : List NodeId) (live : Nat) (hs : slots[id]? = some ⟨node, 1⟩) :
    StateTree.releaseFrom ⟨slots, free, live + 1⟩ id =
      match node.parent with
      | none => .ok () ⟨slots.setIfInBounds id ⟨.root, 0⟩, id :: free, live⟩
      | some parent =>
        StateTree.releaseFrom ⟨slots.setIfInBounds id ⟨.root, 0⟩, id :: free, live⟩ parent := by
  rw [StateTree.releaseFrom, hs]
  cases hp : node.parent with
  | none => simp only [hp, ne_eq, not_true_eq_false, if_false]
  | some parent => simp only [hp, ne_eq, not_true_eq_false, if_false]

/-- A holder that was taken away can be added again. -/
theorem addHolder_setIfInBounds (free : List NodeId) (live : Nat)
    (hs : slots[id]? = some ⟨node, count + 1⟩) :
    StateTree.addHolder ⟨slots.setIfInBounds id ⟨node, count⟩, free, live⟩ id =
      ⟨slots, free, live⟩ := by
  obtain ⟨hlt, -⟩ := Array.getElem?_eq_some_iff.mp hs
  simp only [StateTree.addHolder, StateTree.mk.injEq, and_true]
  apply Array.ext_getElem?
  intro i
  rw [Array.getElem?_modify, Array.getElem?_setIfInBounds]
  by_cases hi : id = i
  · subst hi
    simp only [if_true, if_pos hlt, Option.map_some, hs]
  · simp only [if_neg hi]

/-- The node of the slot is still live. -/
theorem live_setIfInBounds (free : List NodeId) (live : Nat)
    (hs : slots[id]? = some ⟨node, count + 1⟩) (hc : count ≠ 0) :
    Live ⟨slots.setIfInBounds id ⟨node, count⟩, free, live⟩ id := by
  obtain ⟨hlt, -⟩ := Array.getElem?_eq_some_iff.mp hs
  simp only [Live, StateTree.holders, Array.getElem?_setIfInBounds, if_true, if_pos hlt]
  exact hc

/-- A slot that loses its last holder holds nothing. -/
theorem getElem?_emptied (hs : slots[id]? = some ⟨node, 1⟩) :
    (slots.setIfInBounds id ⟨Node.root, 0⟩)[id]? = some ⟨.root, 0⟩ := by
  obtain ⟨hlt, -⟩ := Array.getElem?_eq_some_iff.mp hs
  rw [Array.getElem?_setIfInBounds, if_pos rfl, if_pos hlt]

/-- A slot that was freed can be filled again. -/
theorem placed_setIfInBounds (free : List NodeId) (live : Nat) (hs : slots[id]? = some ⟨node, 1⟩) :
    Placed ⟨slots.setIfInBounds id ⟨.root, 0⟩, id :: free, live⟩ ⟨slots, free, live + 1⟩ id node := by
  obtain ⟨hlt, hget⟩ := Array.getElem?_eq_some_iff.mp hs
  refine ⟨fun other => ?_, fun slot hslot => ?_, fun p hp => ?_, rfl, .inl rfl⟩
  · dsimp only
    rw [Array.getElem?_setIfInBounds]
    by_cases ho : id = other
    · subst ho
      rw [if_pos rfl, hs]
    · rw [if_neg ho, if_neg ho]
  · dsimp only at hslot
    rw [Array.getElem?_setIfInBounds, if_pos rfl, if_pos hlt] at hslot
    exact (Option.some.inj hslot).symm
  · have hle := Array.boole_getElem_le_countP (p := p) hlt
    rw [hget] at hle
    simp only [Array.setIfInBounds, dif_pos hlt, Array.countP_set, hget, hp, Bool.false_eq_true,
      if_false, Nat.add_zero]
    omega

/-- Giving back a handle in use succeeds and keeps the books, and no line comes
up that was not there before. The induction is on the number of live nodes; on
the way up, the link of a node that has gone is a handle still to be given back. -/
theorem Books.releaseFrom (h : Books tree (id ::ₘ held)) :
    ∃ tree', tree.releaseFrom id = .ok () tree' ∧ Books tree' held ∧
      ∀ {other line}, Line tree' other line → Line tree other line := by
  induction hn : tree.live generalizing tree id with
  | zero =>
    have hp := h.counted.live_pos (h.live_of_mem (Multiset.mem_cons_self id held))
    omega
  | succ n ih =>
    have hl := h.live_of_mem (Multiset.mem_cons_self id held)
    obtain ⟨slots, free, live⟩ := tree
    cases hn
    obtain ⟨node, count, hs⟩ := hl.slot
    by_cases hc : count = 0
    · subst hc
      have hplaced := placed_setIfInBounds free n hs
      have hsmall := hplaced.books_small h rfl (getElem?_emptied hs)
      rw [releaseFrom_last free n hs]
      cases hp : node.parent with
      | none =>
        rw [hp] at hsmall
        exact ⟨_, rfl, hsmall, hplaced.keeps⟩
      | some parent =>
        rw [hp] at hsmall
        obtain ⟨tree', hr, hb, hlines⟩ := ih hsmall rfl
        exact ⟨tree', hr, hb, fun hline => hplaced.keeps (hlines hline)⟩
    · have hadd := addHolder_setIfInBounds free (n + 1) hs
      have hl' := live_setIfInBounds free (n + 1) hs hc
      refine ⟨_, releaseFrom_shared free (n + 1) hs hc, ?_, fun hline => ?_⟩
      · rw [← books_addHolder hl', hadd]
        exact h
      · rw [← line_addHolder hl', hadd] at hline
        exact hline

/-- A handle that stays in use keeps its line when another is given back. -/
theorem Books.keeps_of_old {tree' : StateTree} (hb : Books tree' held)
    (hold : ∀ {other line}, Line tree' other line → Line tree other line) {other : NodeId}
    (hm : other ∈ held) {line : List (NodeId × Node)} (hline : Line tree other line) :
    Line tree' other line := by
  obtain ⟨line', hline'⟩ := hb.rooted other (hb.live_of_mem hm)
  rwa [hline.unique (hold hline')]

end Operations

end TernarySynth.Proofs.HolderBooks
