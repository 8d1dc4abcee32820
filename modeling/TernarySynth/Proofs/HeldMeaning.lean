import TernarySynth.Proofs.ClientHistory

/-!
# What a held handle stands for

While a client holds a handle, nothing that it asks for elsewhere in the tree
changes what the handle stands for: the nodes on its line stay in their slots, and
so do the cells and the decisions that are read along it. What is decided or run
below one child of a node is not seen by another.
-/

namespace TernarySynth.Proofs.HeldMeaning

open TritWord CellCode StateTree
open TreeLine HolderBooks HeldChains HandleClient ClientHistory

/-- A node stands in two trees for the same state. -/
structure Unchanged (tree tree' : StateTree) (id : NodeId) : Prop where
  /-- Its registers, its output, its write, its parent and its depth are the same. -/
  node_eq : ∃ node, tree.node? id = .ok node ∧ tree'.node? id = .ok node
  /-- It reads the same from every cell. -/
  resolve_eq : ∀ address, ∃ value, tree.resolve id address = .ok value ∧
    tree'.resolve id address = .ok value
  /-- It builds on the same decisions. -/
  decisions_eq : ∃ found, tree.decisions id = .ok found ∧ tree'.decisions id = .ok found

variable {tree tree' : StateTree} {id child parent : NodeId} {line : List (NodeId × Node)}

/-- A node whose line is kept stands for the same state. -/
theorem unchanged_of_line (h : Line tree id line) (h' : Line tree' id line) :
    Unchanged tree tree' id := by
  obtain ⟨node, rest, rfl, hn⟩ := h.eq_cons
  exact ⟨⟨node, hn, h'.node?_of_mem List.mem_cons_self⟩,
    fun address => ⟨_, h.resolve_eq address, h'.resolve_eq address⟩,
    ⟨_, h.decisions_eq, h'.decisions_eq⟩⟩

/-- A child reads what it has written itself, and from every other cell what its
parent reads. -/
theorem resolve_child {node : Node} (hn : tree.node? child = .ok node)
    (hp : node.parent = some parent) (hline : Line tree parent line) (address : Word) :
    tree.resolve child address =
      match node.valueAt address with
      | some value => .ok (some value)
      | none => tree.resolve parent address := by
  have hchild : Line tree child ((child, node) :: line) := .child hn hp hline
  rw [hchild.resolve_eq, hline.resolve_eq, nodesOf, List.map_cons, read_memoryOf_cons]
  cases node.valueAt address with
  | none => rfl
  | some value => rfl

variable {client client' before after : Client}

/-- What a client asks for keeps the line of every handle that it holds before and
after. -/
theorem Done.keeps (hb : Books client.tree client.held) (done : Done client client')
    (hm : id ∈ client'.held) (hline : Line client.tree id line) : Line client'.tree id line := by
  cases done with
  | grown edge linked above =>
    obtain ⟨made, big, hlink, -, hgrown⟩ := hb.link above
    cases linked.symm.trans hlink
    exact hgrown.keeps hline
  | same => exact hline
  | retained mem => exact (line_addHolder (hb.live_of_mem mem)).mpr hline
  | released mem gone =>
    rw [← Multiset.cons_erase mem] at hb
    obtain ⟨small, hr, hsmall, hold⟩ := hb.releaseFrom
    cases gone.symm.trans hr
    exact hsmall.keeps_of_old hold hm hline

/-- A reachable client that holds a handle goes on in any way in which it never gives
the last such handle back. -/
inductive Keeping (id : NodeId) (before : Client) : Client → Prop where
  /-- It has come about by allowed requests and holds the handle. -/
  | start (reach : before.Reachable) (mem : id ∈ before.held) : Keeping id before before
  /-- It asks for something that it may ask for, and still holds the handle. -/
  | serve {client client' : Client} (sofar : Keeping id before client) (request : Request)
      (allowed : request.Allowed client.held) (served : client.serve request = .ok client')
      (mem : id ∈ client'.held) : Keeping id before client'

/-- A client that keeps a handle has it from the beginning. -/
theorem Keeping.mem_held (h : Keeping id before after) : id ∈ before.held := by
  induction h with
  | start reach mem => exact mem
  | serve sofar request allowed served mem ih => exact ih

/-- It was reachable at the beginning. -/
theorem Keeping.reachable (h : Keeping id before after) : before.Reachable := by
  induction h with
  | start reach mem => exact reach
  | serve sofar request allowed served mem ih => exact ih

/-- A client that keeps a handle stays reachable, and the handle keeps its line. -/
theorem Keeping.keeps (h : Keeping id before after) (hline : Line before.tree id line) :
    after.Reachable ∧ Line after.tree id line := by
  induction h with
  | start reach mem => exact ⟨reach, hline⟩
  | serve sofar request allowed served mem ih =>
    obtain ⟨hreach, hfound⟩ := ih
    exact ⟨hreach.serve request allowed served,
      Done.keeps hreach.sound.books (serve_done allowed served) mem hfound⟩

/-- While a client holds a handle, the handle and all nodes above it stand for what
they stood for at first. Every child of one of these nodes reads its own write, and
from all other cells what that node read at first, whatever other children write. -/
theorem held_handle_unchanged (h : Keeping id before after) :
    Unchanged before.tree after.tree id ∧
      ∀ above, OnLine before.tree id above →
        Unchanged before.tree after.tree above ∧
        ∀ child node, after.tree.node? child = .ok node → node.parent = some above →
          ∀ address, after.tree.resolve child address =
            match node.valueAt address with
            | some value => .ok (some value)
            | none => before.tree.resolve above address := by
  have hb := h.reachable.sound.books
  obtain ⟨line, hline⟩ := hb.rooted id (hb.live_of_mem h.mem_held)
  obtain ⟨-, hafter⟩ := h.keeps hline
  refine ⟨unchanged_of_line hline hafter, ?_⟩
  rintro above ⟨line', hline', hmem⟩
  rw [hline'.unique hline] at hmem
  obtain ⟨entry, he, rfl⟩ := List.mem_map.mp hmem
  obtain ⟨rest, hrest, hsuffix⟩ := hline.suffix he
  have hkept : Line after.tree entry.1 rest :=
    hrest.frame fun other ho => hafter.node?_of_mem (hsuffix.subset ho)
  refine ⟨unchanged_of_line hrest hkept, fun child node hn hp address => ?_⟩
  rw [resolve_child hn hp hkept, hkept.resolve_eq, hrest.resolve_eq]

/-- A node that decides a cell keeps its meaning while another child of its parent
decides the same cell, is given back, and leaves its slot to a new root. -/
theorem held_handle_unchanged_of_sibling :
    ∃ before after : Client, Keeping 1 before after ∧
      Unchanged before.tree after.tree 1 ∧ before.held = {1, 0} ∧ after.held = {2, 1, 0} := by
  let first : Node := ⟨.initial, [], some ⟨0, encode 0 .noOp, .decision⟩, some 0, 1⟩
  let second : Node := ⟨.initial, [], some ⟨0, encode 0 .output, .decision⟩, some 0, 1⟩
  have hroot := Client.Reachable.start.serve .root nofun rfl
  have hfirst := hroot.serve (.decide 0 0 .noOp) (fun id hid => by cases hid; decide) rfl
  have hbefore := Keeping.start hfirst (show 1 ∈ _ by decide)
  have hsecond := hbefore.serve (.decide 0 0 .output)
    (fun id hid => by cases hid; decide) rfl (by decide)
  have hlast : StateTree.releaseFrom ⟨#[⟨.root, 3⟩, ⟨first, 1⟩, ⟨second, 1⟩], [], 3⟩ 2 =
      StateTree.releaseFrom ⟨#[⟨.root, 3⟩, ⟨first, 1⟩, ⟨.root, 0⟩], [2], 2⟩ 0 :=
    @releaseFrom_last 2 _ second [] 2 rfl
  have hgone := hsecond.serve (.release 2) (fun id hid => by cases hid; decide)
    (serve_release (hlast.trans (releaseFrom_shared _ _ rfl (by decide)))) (by decide)
  have hafter := hgone.serve .root nofun rfl (by decide)
  exact ⟨_, _, hafter, (held_handle_unchanged hafter).1, by decide, by decide⟩

end TernarySynth.Proofs.HeldMeaning
