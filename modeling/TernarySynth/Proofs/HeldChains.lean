import TernarySynth.Proofs.HolderBooks

/-!
# What keeps a node live

A tree that keeps its books holds no node for nothing: from every live node one
comes, by going from a node to one of those that link to it, to a handle in use.
So the live nodes are exactly those on the lines of the handles in use, and all
other slots are free.
-/

namespace TernarySynth.Proofs.HeldChains

open StateTree TreeLine HolderBooks

/-- How many live nodes link to a node. -/
def liveLinks (tree : StateTree) (id : NodeId) : Nat :=
  tree.slots.countP fun slot => isHeld slot && linksTo id slot

/-- A node is on the line of a handle: it is the node of the handle or one of the
nodes above it. -/
def OnLine (tree : StateTree) (handle id : NodeId) : Prop :=
  ∃ line, Line tree handle line ∧ id ∈ line.map Prod.fst

variable {tree : StateTree} {held : Multiset NodeId} {handle middle id : NodeId}

/-- A node with a line is on it. -/
theorem onLine_self {line : List (NodeId × Node)} (h : Line tree id line) : OnLine tree id id := by
  obtain ⟨node, rest, rfl, -⟩ := h.eq_cons
  exact ⟨_, h, List.mem_cons_self⟩

/-- What is above a node on a line is on the line. -/
theorem OnLine.trans (h : OnLine tree handle middle) (h' : OnLine tree middle id) :
    OnLine tree handle id := by
  obtain ⟨line, hline, hm⟩ := h
  obtain ⟨above, habove, hm'⟩ := h'
  obtain ⟨entry, he, rfl⟩ := List.mem_map.mp hm
  obtain ⟨rest, hrest, hsuffix⟩ := hline.suffix he
  rw [habove.unique hrest] at hm'
  exact ⟨line, hline, (hsuffix.map Prod.fst).subset hm'⟩

/-- Every node on a line is live. -/
theorem OnLine.live (h : OnLine tree handle id) : Live tree id := by
  obtain ⟨line, hline, hm⟩ := h
  obtain ⟨entry, he, rfl⟩ := List.mem_map.mp hm
  exact live_iff.mpr ⟨_, hline.node?_of_mem he⟩

/-- A slot links to the parent of its node only. -/
theorem linksTo_iff {slot : Slot} : linksTo id slot = true ↔ slot.node.parent = some id := by
  rw [linksTo, beq_iff_eq]

/-- A slot is held while somebody holds it. -/
theorem isHeld_iff {slot : Slot} : isHeld slot = true ↔ slot.holders ≠ 0 := by
  rw [isHeld, bne_iff_ne]

/-- The node of a held slot. -/
theorem node?_of_isHeld {slot : Slot} (hs : tree.slots[id]? = some slot)
    (hheld : isHeld slot = true) : tree.node? id = .ok slot.node :=
  node?_eq_ok.mpr ⟨slot.holders, hs, isHeld_iff.mp hheld⟩

/-- Only live nodes link to others. -/
theorem liveLinks_eq (h : Books tree held) (id : NodeId) :
    liveLinks tree id = linkCount tree id := by
  refine Array.countP_congr fun slot hs => ?_
  obtain ⟨i, hi⟩ := Array.getElem?_of_mem hs
  rw [Bool.and_eq_true, and_iff_right_iff_imp, linksTo_iff, isHeld_iff]
  intro hl hz
  rw [h.free_root i slot hi hz] at hl
  cases hl

/-- A live node is held by a handle in use, or a live node links to it. -/
theorem held_or_linked (h : Books tree held) (hl : Live tree id) :
    id ∈ held ∨ ∃ child node, tree.node? child = .ok node ∧ node.parent = some id := by
  by_cases hm : id ∈ held
  · exact .inl hm
  · have he := h.holders_eq id
    rw [Multiset.count_eq_zero_of_notMem hm, Nat.zero_add, ← liveLinks_eq h] at he
    have hpos : 0 < liveLinks tree id := he ▸ Nat.pos_of_ne_zero hl
    obtain ⟨slot, hs, hslot⟩ := Array.countP_pos_iff.mp hpos
    obtain ⟨child, hchild⟩ := Array.getElem?_of_mem hs
    rw [Bool.and_eq_true, linksTo_iff] at hslot
    exact .inr ⟨child, slot.node, node?_of_isHeld hchild hslot.1, hslot.2⟩

/-- Every node with a line is on the line of a handle in use. The induction goes
down the tree: the line of a node that links to this one is longer by a node, and
no line is longer than the tree has slots. -/
theorem onLine_of_line (h : Books tree held) {line : List (NodeId × Node)}
    (hline : Line tree id line) : ∃ handle ∈ held, OnLine tree handle id := by
  induction hn : tree.slots.size - line.length using Nat.strong_induction_on
    generalizing id line with
  | _ n ih =>
    rcases held_or_linked h hline.live with hm | ⟨child, node, hnode, hparent⟩
    · exact ⟨id, hm, onLine_self hline⟩
    · have hchild : Line tree child ((child, node) :: line) := .child hnode hparent hline
      have hle := hchild.length_le
      rw [List.length_cons] at hle
      obtain ⟨handle, hm, ho⟩ := ih _ (by rw [List.length_cons]; omega) hchild rfl
      refine ⟨handle, hm, ho.trans ⟨_, hchild, ?_⟩⟩
      obtain ⟨top, rest, rfl, -⟩ := hline.eq_cons
      exact List.mem_cons_of_mem _ List.mem_cons_self

/-- The live nodes are those on the lines of the handles in use. -/
theorem live_iff_onLine (h : Books tree held) (id : NodeId) :
    Live tree id ↔ ∃ handle ∈ held, OnLine tree handle id := by
  constructor
  · intro hl
    obtain ⟨line, hline⟩ := h.rooted id hl
    exact onLine_of_line h hline
  · rintro ⟨handle, -, ho⟩
    exact ho.live

/-- Where no handle is in use no node is live. -/
theorem live_eq_zero (h : Books tree 0) : tree.live = 0 := by
  rw [h.live_eq, Array.countP_eq_zero]
  intro slot hs hheld
  obtain ⟨i, hi⟩ := Array.getElem?_of_mem hs
  have hl : Live tree i := live_iff.mpr ⟨_, node?_of_isHeld hi hheld⟩
  obtain ⟨handle, hm, -⟩ := (live_iff_onLine h i).mp hl
  exact Multiset.notMem_zero handle hm

/-- The free slots are those of the tree that have no holders. -/
theorem mem_free_iff (h : Books tree held) (id : NodeId) :
    id ∈ tree.free ↔ id < tree.slots.size ∧ tree.holders id = 0 :=
  h.counted.mem_free_iff id

/-- Slots can be counted by their numbers. -/
theorem countP_slots (tree : StateTree) (p : Slot → Bool) :
    tree.slots.countP p =
      (List.range tree.slots.size).countP fun i => (tree.slots[i]?).any p := by
  have hmap : (List.range tree.slots.size).map (fun i => tree.slots[i]?) =
      tree.slots.toList.map some := by
    refine List.ext_getElem (by simp only [List.length_map, List.length_range,
      Array.length_toList]) fun i hi _ => ?_
    rw [List.length_map, List.length_range] at hi
    simp only [List.getElem_map, List.getElem_range, Array.getElem_toList,
      Array.getElem?_eq_getElem hi]
  have hcount := congrArg (List.countP fun slot => slot.any p) hmap
  rw [List.countP_map, List.countP_map] at hcount
  rw [← Array.countP_toList]
  exact hcount.symm

/-- There are as many free slots as slots without holders. -/
theorem length_free (h : Books tree held) :
    tree.free.length = tree.slots.countP fun slot => !isHeld slot := by
  rw [countP_slots, List.countP_eq_length_filter]
  refine ((List.perm_ext_iff_of_nodup h.free_nodup (List.nodup_range.filter _)).mpr
    fun id => ?_).length_eq
  rw [h.mem_free, List.mem_filter, List.mem_range, Option.any_eq_true]
  constructor
  · rintro ⟨slot, hs, hz⟩
    refine ⟨(Array.getElem?_eq_some_iff.mp hs).1, slot, hs, ?_⟩
    rw [Bool.not_eq_true', isHeld, hz, bne_self_eq_false]
  · rintro ⟨-, slot, hs, hheld⟩
    refine ⟨slot, hs, ?_⟩
    rwa [Bool.not_eq_true', isHeld, bne_eq_false_iff_eq] at hheld

/-- Every slot is live or free. -/
theorem live_add_length_free (h : Books tree held) :
    tree.live + tree.free.length = tree.slots.size := by
  have hsize := @Array.size_eq_countP_add_countP _ isHeld tree.slots
  rw [h.live_eq, length_free h, hsize]
  simp only [Bool.not_eq_true, Bool.decide_eq_false]

end TernarySynth.Proofs.HeldChains
