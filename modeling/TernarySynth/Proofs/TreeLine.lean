import Mathlib.Data.List.Nodup
import Mathlib.Data.List.Perm.Subperm
import TernarySynth.StateTree
import TernarySynth.SparseMemory

/-!
# Lines of ancestors

The line of a node is the list of the nodes from it to its root, with their
handles. A node has at most one line, no handle occurs twice on it, and it is no
longer than the tree has slots. What a node reads, and what it builds on, is a
function of its line alone; so whatever leaves the nodes of a line in place
leaves everything about the node as it was.
-/

namespace TernarySynth.Proofs.TreeLine

open TritWord CellCode MemoryImage SparseMemory StateTree

/-- A node is live while somebody holds it. -/
def Live (tree : StateTree) (id : NodeId) : Prop := tree.holders id ≠ 0

/-- The node of a handle is the node of a slot that is held. -/
theorem node?_eq_ok {tree : StateTree} {id : NodeId} {node : Node} :
    tree.node? id = .ok node ↔ ∃ holders, tree.slots[id]? = some ⟨node, holders⟩ ∧ holders ≠ 0 := by
  unfold StateTree.node?
  cases hs : tree.slots[id]? with
  | none => simp only [reduceCtorEq, false_and, exists_false]
  | some slot =>
    obtain ⟨found, holders⟩ := slot
    by_cases hz : holders = 0
    · subst hz
      simp only [if_true, reduceCtorEq, Option.some.injEq, Slot.mk.injEq, false_iff]
      rintro ⟨_, ⟨-, rfl⟩, hn⟩
      exact hn rfl
    · simp only [if_neg hz, Except.ok.injEq, Option.some.injEq, Slot.mk.injEq]
      constructor
      · rintro rfl
        exact ⟨holders, ⟨rfl, rfl⟩, hz⟩
      · rintro ⟨_, ⟨rfl, -⟩, -⟩
        rfl

/-- Exactly the live nodes can be looked at. -/
theorem live_iff {tree : StateTree} {id : NodeId} :
    Live tree id ↔ ∃ node, tree.node? id = .ok node := by
  unfold Live StateTree.holders
  cases hs : tree.slots[id]? with
  | none =>
    simp only [ne_eq, not_true_eq_false, false_iff, not_exists]
    intro node hn
    obtain ⟨_, hs', -⟩ := node?_eq_ok.mp hn
    rw [hs] at hs'
    cases hs'
  | some slot =>
    constructor
    · intro hz
      exact ⟨slot.node, node?_eq_ok.mpr ⟨slot.holders, hs, hz⟩⟩
    · rintro ⟨node, hn⟩
      obtain ⟨_, hs', hz⟩ := node?_eq_ok.mp hn
      rw [hs] at hs'
      cases hs'
      exact hz

/-- The slot of a live node. -/
theorem Live.slot {tree : StateTree} {id : NodeId} (h : Live tree id) :
    ∃ node holders, tree.slots[id]? = some ⟨node, holders + 1⟩ := by
  obtain ⟨node, hn⟩ := live_iff.mp h
  obtain ⟨holders, hs, hz⟩ := node?_eq_ok.mp hn
  obtain ⟨count, rfl⟩ := Nat.exists_eq_succ_of_ne_zero hz
  exact ⟨node, count, hs⟩

/-- A live node has a slot. -/
theorem Live.lt_size {tree : StateTree} {id : NodeId} (h : Live tree id) :
    id < tree.slots.size := by
  obtain ⟨_, _, hs⟩ := h.slot
  exact (Array.getElem?_eq_some_iff.mp hs).1

/-- The nodes from a node to its root, the node itself first, each with its
handle. All of them are live. -/
inductive Line (tree : StateTree) : NodeId → List (NodeId × Node) → Prop where
  /-- A node without a parent is a line of its own. -/
  | root {id : NodeId} {node : Node} (here : tree.node? id = .ok node)
      (top : node.parent = none) : Line tree id [(id, node)]
  /-- Any other node comes before the line of its parent. -/
  | child {id parent : NodeId} {node : Node} {line : List (NodeId × Node)}
      (here : tree.node? id = .ok node) (link : node.parent = some parent)
      (above : Line tree parent line) : Line tree id ((id, node) :: line)

/-- The nodes of a line. -/
def nodesOf (line : List (NodeId × Node)) : List Node := line.map Prod.snd

variable {tree tree' : StateTree} {id : NodeId} {line : List (NodeId × Node)}

/-- A node with a line is live. -/
theorem Line.live (h : Line tree id line) : Live tree id := by
  cases h with
  | root here top => exact live_iff.mpr ⟨_, here⟩
  | child here link above => exact live_iff.mpr ⟨_, here⟩

/-- A line begins with its node. -/
theorem Line.eq_cons (h : Line tree id line) :
    ∃ node rest, line = (id, node) :: rest ∧ tree.node? id = .ok node := by
  cases h with
  | root here top => exact ⟨_, [], rfl, here⟩
  | child here link above => exact ⟨_, _, rfl, here⟩

/-- A node has one line only. -/
theorem Line.unique {other : List (NodeId × Node)} (h : Line tree id line)
    (h' : Line tree id other) : line = other := by
  induction h generalizing other with
  | root here top =>
    cases h' with
    | root here' top' =>
      cases here.symm.trans here'
      rfl
    | child here' link' above' =>
      cases here.symm.trans here'
      rw [top] at link'
      cases link'
  | child here link above ih =>
    cases h' with
    | root here' top' =>
      cases here.symm.trans here'
      rw [link] at top'
      cases top'
    | child here' link' above' =>
      cases here.symm.trans here'
      rw [link] at link'
      cases link'
      rw [ih above']

/-- A line stays a line in every tree that keeps its nodes. -/
theorem Line.frame (h : Line tree id line)
    (keep : ∀ entry ∈ line, tree'.node? entry.1 = .ok entry.2) : Line tree' id line := by
  induction h with
  | root here top => exact .root (keep _ List.mem_cons_self) top
  | child here link above ih =>
    exact .child (keep _ List.mem_cons_self) link
      (ih fun entry he => keep entry (List.mem_cons_of_mem _ he))

/-- Every node on a line is the node of its handle. -/
theorem Line.node?_of_mem (h : Line tree id line) {entry : NodeId × Node} (he : entry ∈ line) :
    tree.node? entry.1 = .ok entry.2 := by
  induction h with
  | root here top =>
    rw [List.mem_singleton] at he
    rw [he]
    exact here
  | child here link above ih =>
    rcases List.mem_cons.mp he with rfl | he
    · exact here
    · exact ih he

/-- From every node of a line on, the rest of the line is the line of that node. -/
theorem Line.suffix (h : Line tree id line) {entry : NodeId × Node} (he : entry ∈ line) :
    ∃ rest, Line tree entry.1 rest ∧ rest <:+ line := by
  induction h with
  | root here top =>
    rw [List.mem_singleton] at he
    subst he
    exact ⟨_, .root here top, List.suffix_refl _⟩
  | child here link above ih =>
    rcases List.mem_cons.mp he with rfl | he
    · exact ⟨_, .child here link above, List.suffix_refl _⟩
    · obtain ⟨rest, hr, hs⟩ := ih he
      exact ⟨rest, hr, hs.trans (List.suffix_cons _ _)⟩

/-- No handle occurs twice on a line. -/
theorem Line.nodup (h : Line tree id line) : (line.map Prod.fst).Nodup := by
  induction h with
  | root here top => exact List.nodup_singleton _
  | @child id parent node line here link above ih =>
    rw [List.map_cons, List.nodup_cons]
    refine ⟨fun hm => ?_, ih⟩
    obtain ⟨entry, he, rfl⟩ := List.mem_map.mp hm
    obtain ⟨rest, hr, hs⟩ := above.suffix he
    -- The line of the node would be a part of the line of its parent, and so of itself.
    have heq := hr.unique (.child here link above)
    have hl := hs.length_le
    rw [heq, List.length_cons] at hl
    omega

/-- A line is no longer than the tree has slots. -/
theorem Line.length_le (h : Line tree id line) : line.length ≤ tree.slots.size := by
  have hsub : line.map Prod.fst ⊆ List.range tree.slots.size := by
    intro i hi
    obtain ⟨entry, he, rfl⟩ := List.mem_map.mp hi
    have hlive : Live tree entry.1 := live_iff.mpr ⟨_, h.node?_of_mem he⟩
    exact List.mem_range.mpr hlive.lt_size
  have hl := (h.nodup.subperm hsub).length_le
  rwa [List.length_map, List.length_range] at hl

/-- The address and value that a node writes. -/
def cellOf (node : Node) : Option (Word × Word) :=
  node.write.map fun write => (write.address, write.value)

/-- The memory that nodes make up together, the first of them written last. -/
def memoryOf (nodes : List Node) : SparseMemory := ⟨nodes.filterMap cellOf⟩

/-- The memory of a node and those above it asks the node first. -/
theorem read_memoryOf_cons (node : Node) (nodes : List Node) (address : Word) :
    (memoryOf (node :: nodes)).read address =
      match node.valueAt address with
      | some value => some value
      | none => (memoryOf nodes).read address := by
  unfold memoryOf SparseMemory.read Node.valueAt cellOf
  rw [List.filterMap_cons]
  cases node.write with
  | none => rfl
  | some write =>
    dsimp only [Option.map_some]
    rw [List.find?_cons]
    by_cases ha : write.address = address
    · simp only [ha, beq_self_eq_true, if_true, Option.map_some]
    · simp only [beq_eq_false_iff_ne.mpr ha, if_neg ha]

/-- Walking along a line finds what its memory holds. -/
theorem Line.resolveWithin_eq (h : Line tree id line) (address : Word) {steps : Nat}
    (enough : line.length ≤ steps) :
    tree.resolveWithin address steps id = .ok ((memoryOf (nodesOf line)).read address) := by
  induction h generalizing steps with
  | @root id node here top =>
    obtain ⟨steps, rfl⟩ : ∃ n, steps = n + 1 := Nat.exists_eq_add_of_le' enough
    simp only [StateTree.resolveWithin, here, top, nodesOf, List.map_cons, List.map_nil]
    rw [read_memoryOf_cons]
    cases node.valueAt address <;> rfl
  | @child id parent node line here link above ih =>
    rw [List.length_cons] at enough
    obtain ⟨steps, rfl⟩ : ∃ n, steps = n + 1 := Nat.exists_eq_add_of_le' (by omega : 1 ≤ steps)
    simp only [StateTree.resolveWithin, here, link, nodesOf, List.map_cons]
    rw [read_memoryOf_cons]
    cases node.valueAt address with
    | none => exact ih (by omega)
    | some value => rfl

/-- What a node reads is what the memory of its line holds. -/
theorem Line.resolve_eq (h : Line tree id line) (address : Word) :
    tree.resolve id address = .ok ((memoryOf (nodesOf line)).read address) :=
  h.resolveWithin_eq address h.length_le

/-- Walking along a line collects its nodes. -/
theorem Line.pathWithin_eq (h : Line tree id line) {steps : Nat} (enough : line.length ≤ steps) :
    tree.pathWithin steps id = .ok (nodesOf line) := by
  induction h generalizing steps with
  | root here top =>
    obtain ⟨steps, rfl⟩ : ∃ n, steps = n + 1 := Nat.exists_eq_add_of_le' enough
    simp only [StateTree.pathWithin, here, top, nodesOf, List.map_cons, List.map_nil]
  | child here link above ih =>
    rw [List.length_cons] at enough
    obtain ⟨steps, rfl⟩ : ∃ n, steps = n + 1 := Nat.exists_eq_add_of_le' (by omega : 1 ≤ steps)
    simp only [StateTree.pathWithin, here, link, ih (by omega : _ ≤ steps), nodesOf, List.map_cons]

/-- The decisions that a node builds on are those of its line. -/
theorem Line.decisions_eq (h : Line tree id line) :
    tree.decisions id = .ok (StateTree.decisionsOf (nodesOf line)) := by
  unfold StateTree.decisions StateTree.path
  rw [h.pathWithin_eq h.length_le]

end TernarySynth.Proofs.TreeLine
