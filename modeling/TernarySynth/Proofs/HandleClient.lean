import Mathlib.Data.Multiset.AddSub
import TernarySynth.Proofs.LineMachine
import TernarySynth.Proofs.WordRange

/-!
# Clients of a tree

A client works on a tree through handles that it holds. It may ask for a root,
decide a cell below a node, run a phase of a node, and take or give back a
handle, in any order and as often as it likes. Whatever it does, every live node
stands for an ordinary machine: the one that starts with nothing decided and
replays, on a single memory, what was decided and run on the way to the node.
-/

namespace TernarySynth.Proofs.HandleClient

open TritWord CellCode MemoryImage SparseMemory TernarySynth.Cycle StateTree Speculation
open CodeValues LateDecision TreeLine HolderBooks LineMachine WordRange

/-- What has made a node out of its parent. -/
inductive Edge where
  /-- The instruction of a cell was decided. -/
  | decided (address : Word) (instruction : Instruction)
  /-- A phase was run. -/
  | ran (lenient : Bool)

/-- A tree and the client that works on it. -/
structure Client where
  /-- The tree. -/
  tree : StateTree
  /-- The handles that the client holds, each as often as it holds it. -/
  held : Multiset NodeId
  /-- What has made the node of a handle; it says nothing about roots. -/
  edge : NodeId → Edge

/-- What a client can ask for. -/
inductive Request where
  /-- A new root. -/
  | root
  /-- A child that decides a cell. -/
  | decide (parent : NodeId) (address : Word) (instruction : Instruction)
  /-- A phase of a node. -/
  | transition (lenient : Bool) (id : NodeId)
  /-- One more handle on a node. -/
  | retain (id : NodeId)
  /-- To be rid of a handle. -/
  | release (id : NodeId)

/-- The handle that a request uses. -/
def Request.handle? : Request → Option NodeId
  | .root => none
  | .decide parent _ _ => some parent
  | .transition _ id => some id
  | .retain id => some id
  | .release id => some id

/-- A client uses only handles that it holds. -/
def Request.Allowed (request : Request) (held : Multiset NodeId) : Prop :=
  ∀ id, request.handle? = some id → id ∈ held

/-- A request that uses a held handle is allowed. -/
theorem Request.allowed_of_mem {request : Request} {held : Multiset NodeId} {id : NodeId}
    (uses : request.handle? = some id) (mem : id ∈ held) : request.Allowed held := by
  intro other ho
  cases uses.symm.trans ho
  exact mem

namespace Client

/-- A client of a tree without nodes. -/
def fresh : Client := ⟨.empty, 0, fun _ => .ran false⟩

/-- The client holds the handle of a new node. -/
def gain (client : Client) (tree : StateTree) (id : NodeId) (edge : Edge) : Client :=
  ⟨tree, id ::ₘ client.held, fun other => if other = id then edge else client.edge other⟩

/-- Do what the client asks for. -/
def serve (client : Client) : Request → Except Breakdown Client
  | .root =>
    match StateTree.root client.tree with
    | .ok id tree => .ok (client.gain tree id (.ran false))
    | .error reason _ => .error reason
  | .decide parent address instruction =>
    match StateTree.decide parent address instruction client.tree with
    | .ok id tree => .ok (client.gain tree id (.decided address instruction))
    | .error reason _ => .error reason
  | .transition lenient id =>
    match Speculation.transition lenient id client.tree with
    | .ok (.stepped child) tree => .ok (client.gain tree child (.ran lenient))
    | .ok _ tree => .ok ⟨tree, client.held, client.edge⟩
    | .error reason _ => .error reason
  | .retain id =>
    match StateTree.retain id client.tree with
    | .ok () tree => .ok ⟨tree, id ::ₘ client.held, client.edge⟩
    | .error reason _ => .error reason
  | .release id =>
    match StateTree.release id client.tree with
    | .ok () tree => .ok ⟨tree, client.held.erase id, client.edge⟩
    | .error reason _ => .error reason

/-- The clients that come about by allowed requests. -/
inductive Reachable : Client → Prop where
  /-- A client begins without nodes. -/
  | start : Reachable fresh
  /-- It asks for something that it may ask for. -/
  | serve {client client' : Client} (before : Reachable client) (request : Request)
      (allowed : request.Allowed client.held) (served : client.serve request = .ok client') :
      Reachable client'

/-- What has made the nodes of a line, the latest first. The root at its end was
made from nothing. -/
def trail (client : Client) (line : List (NodeId × Node)) : List Edge :=
  line.dropLast.map fun entry => client.edge entry.1

end Client

section Replay

variable {M : Type} [Memory M]

/-- Run a trail on an ordinary machine that begins with the memory `blank`. -/
def replay (blank : M) : List Edge → Machine M Transcript.Transcript
  | [] => ⟨.initial, blank, .withoutInput []⟩
  | .decided address instruction :: edges =>
    (replay blank edges).store address (encode address instruction)
  | .ran lenient :: edges => (step lenient (replay blank edges)).2

variable [PartialMemory M] {blank : M} (hblank : ∀ a, Memory.read blank a = none)
include hblank

/-- A replay stays in the range. -/
theorem searching_replay (edges : List Edge) : Searching (replay blank edges) := by
  induction edges with
  | nil => exact searching_blank hblank
  | cons edge edges ih =>
    cases edge with
    | decided address instruction =>
      exact ih.store address (printable_lt (encode_printable address instruction))
    | ran lenient => exact (ih.step lenient).1

end Replay

/-- A client whose tree keeps its books, and whose live nodes stand for the
replays of their trails. -/
structure Client.Sound (client : Client) : Prop where
  /-- The tree counts the handles of the client. -/
  books : Books client.tree client.held
  /-- The machine of every line is the replay of its trail. -/
  replayed : ∀ {id line}, Line client.tree id line →
    machineOf (nodesOf line) = replay SparseMemory.empty (client.trail line)

namespace Client

variable {client client' : Client} {tree' : StateTree} {id child : NodeId}
variable {line : List (NodeId × Node)}

/-- The trail of a line of live nodes does not change when the edge of a new
node is noted. -/
theorem trail_gain (hfresh : ¬ Live client.tree child) (h : Line client.tree id line)
    (edge : Edge) : (client.gain tree' child edge).trail line = client.trail line := by
  refine List.map_congr_left fun entry he => ?_
  have hm : entry ∈ line := (List.dropLast_sublist line).subset he
  have hne : entry.1 ≠ child := by
    intro hc
    exact hfresh (hc ▸ live_iff.mpr ⟨_, h.node?_of_mem hm⟩)
  exact if_neg hne

/-- A client stays sound when it gains a node whose machine replays its trail. -/
theorem Sound.gain (h : client.Sound) {node : Node} {edge : Edge}
    (hb : Books tree' (child ::ₘ client.held)) (hg : Grown client.tree tree' child node)
    (hline : Line tree' child line)
    (hm : machineOf (nodesOf line) =
      replay SparseMemory.empty ((client.gain tree' child edge).trail line)) :
    (client.gain tree' child edge).Sound := by
  refine ⟨hb, fun {other found} hfound => ?_⟩
  rcases hg.old hfound with rfl | hold
  · rw [hfound.unique hline]
    exact hm
  · rw [trail_gain hg.fresh hold]
    exact h.replayed hold

/-- A client stays sound when it gains a node on top of a line. -/
theorem Sound.gain_successor (h : client.Sound) {node child_node : Node} {edge : Edge}
    (hline : Line client.tree id ((id, node) :: line))
    (hs : Successor client.tree tree' client.held ((id, node) :: line) child child_node)
    (hm : machineOf (child_node :: node :: nodesOf line) =
      replay SparseMemory.empty (edge :: client.trail ((id, node) :: line))) :
    (client.gain tree' child edge).Sound := by
  refine h.gain hs.books hs.grown hs.line ?_
  have htrail : (client.gain tree' child edge).trail ((child, child_node) :: (id, node) :: line) =
      edge :: client.trail ((id, node) :: line) := by
    rw [← trail_gain hs.grown.fresh hline edge]
    exact congrArg (· :: _) (if_pos rfl)
  rw [htrail]
  exact hm

/-- The nodes of a sound client replay a search, so they stay in the range. -/
theorem Sound.searching (h : client.Sound) (hline : Line client.tree id line) :
    Searching (machineOf (nodesOf line)) := by
  rw [h.replayed hline]
  exact searching_replay (fun _ => rfl) _

/-- A client that holds nothing in an empty tree is sound. -/
theorem fresh_sound : fresh.Sound := by
  refine ⟨books_empty, fun hline => absurd rfl hline.live⟩

/-- A root can always be had. -/
theorem Sound.serve_root (h : client.Sound) :
    ∃ client', client.serve .root = .ok client' ∧ client'.Sound := by
  have htop : ∀ parent, Node.root.parent = some parent → Live client.tree parent := nofun
  obtain ⟨id, tree', hl, hb, hg⟩ := h.books.link htop
  refine ⟨client.gain tree' id (.ran false), ?_, ?_⟩
  · simp only [serve, StateTree.root, hl]
  · exact h.gain hb hg (.root hg.here rfl) rfl

/-- Below a held node any cell can be decided. -/
theorem Sound.serve_decide (h : client.Sound) (hm : id ∈ client.held) (address : Word)
    (instruction : Instruction) :
    ∃ client', client.serve (.decide id address instruction) = .ok client' ∧ client'.Sound := by
  obtain ⟨node, line, hline⟩ := h.books.line_of_mem hm
  obtain ⟨child, child_node, tree', hd, hs, -, -, hmachine⟩ :=
    decide_eq h.books hline address instruction
  refine ⟨client.gain tree' child (.decided address instruction), ?_, ?_⟩
  · simp only [serve, hd]
  · refine h.gain_successor hline hs ?_
    rw [hmachine, replay, ← h.replayed hline]
    rfl

/-- A phase of a held node can always be run. -/
theorem Sound.serve_transition (h : client.Sound) (hm : id ∈ client.held) (lenient : Bool) :
    ∃ client', client.serve (.transition lenient id) = .ok client' ∧ client'.Sound := by
  obtain ⟨node, line, hline⟩ := h.books.line_of_mem hm
  have hmachine := h.replayed hline
  have hstill : ∀ answer, (∀ child, answer ≠ .stepped child) →
      transition lenient id client.tree = .ok answer client.tree →
      client.serve (.transition lenient id) = .ok client := by
    intro answer hne ht
    rw [serve, ht]
    cases answer with
    | stepped child => exact absurd rfl (hne child)
    | exited => rfl
    | needsDecision address => rfl
    | failed fault => rfl
  cases ho : (step lenient (machineOf (node :: nodesOf line))).1 with
  | completed status =>
    cases status with
    | running =>
      obtain ⟨child, child_node, tree', ht, hs, -, -, hnext⟩ := transition_running h.books hline ho
      refine ⟨client.gain tree' child (.ran lenient), ?_, ?_⟩
      · simp only [serve, ht]
      · refine h.gain_successor hline hs ?_
        rw [hnext, replay, ← hmachine]
        rfl
    | exited =>
      exact ⟨client, hstill .exited (fun _ => nofun) (transition_still hline (by rw [ho]; rfl)), h⟩
  | needsDecision address =>
    exact ⟨client, hstill (.needsDecision address) (fun _ => nofun)
      (transition_still hline (by rw [ho]; rfl)), h⟩
  | failed fault =>
    exact ⟨client, hstill (.failed fault) (fun _ => nofun)
      (transition_still hline (by rw [ho]; rfl)), h⟩
  | overflowed => exact absurd ho ((h.searching hline).step lenient).2.1

/-- Another handle on a held node can always be had. -/
theorem Sound.serve_retain (h : client.Sound) (hm : id ∈ client.held) :
    ∃ client', client.serve (.retain id) = .ok client' ∧ client'.Sound := by
  have hl := h.books.live_of_mem hm
  refine ⟨⟨client.tree.addHolder id, id ::ₘ client.held, client.edge⟩, rfl, ?_, fun hline => ?_⟩
  · exact (books_addHolder hl).mpr h.books
  · exact h.replayed ((line_addHolder hl).mp hline)

/-- A held handle can always be given back. -/
theorem Sound.serve_release (h : client.Sound) (hm : id ∈ client.held) :
    ∃ client', client.serve (.release id) = .ok client' ∧ client'.Sound := by
  have hb := h.books
  rw [← Multiset.cons_erase hm] at hb
  obtain ⟨tree', hr, hb', hlines⟩ := hb.releaseFrom
  refine ⟨⟨tree', client.held.erase id, client.edge⟩, ?_, hb', fun hline => ?_⟩
  · simp only [serve, StateTree.release, hr]
  · exact h.replayed (hlines hline)

/-- Every allowed request of a sound client succeeds and keeps it sound. -/
theorem Sound.serve (h : client.Sound) {request : Request}
    (allowed : request.Allowed client.held) :
    ∃ client', client.serve request = .ok client' ∧ client'.Sound := by
  cases request with
  | root => exact h.serve_root
  | decide parent address instruction =>
    exact h.serve_decide (allowed parent rfl) address instruction
  | transition lenient id => exact h.serve_transition (allowed id rfl) lenient
  | retain id => exact h.serve_retain (allowed id rfl)
  | release id => exact h.serve_release (allowed id rfl)

/-- Reachable clients are sound. -/
theorem Reachable.sound (h : Reachable client) : client.Sound := by
  induction h with
  | start => exact fresh_sound
  | serve before request allowed served ih =>
    obtain ⟨client', hs, hsound⟩ := ih.serve allowed
    cases served.symm.trans hs
    exact hsound

end Client

end TernarySynth.Proofs.HandleClient
