import TernarySynth.Proofs.HandleClient
import TernarySynth.Proofs.HeldChains

/-!
# The history of a client

Whatever a client that uses only its own handles asks for, the request succeeds
and the books stay in order: holders are counted, free slots are listed once, and
what is live is on the line of a handle of the client. A new slot is taken only
when every slot is live, so there are as many slots as nodes were ever live at a
time.
-/

namespace TernarySynth.Proofs.ClientHistory

open TritWord CellCode MemoryImage StateTree Speculation
open TreeLine HolderBooks HeldChains HandleClient

section Operations

variable {tree tree' : StateTree} {id child : NodeId}

/-- An operation that goes on after another has done both. -/
theorem bind_ok {α β : Type} {first : TreeM α} {next : α → TreeM β} {value : β}
    (h : (first >>= next) tree = .ok value tree') :
    ∃ found middle, first tree = .ok found middle ∧ next found middle = .ok value tree' := by
  simp only [bind, EStateM.bind] at h
  cases hf : first tree with
  | ok found middle =>
    rw [hf] at h
    exact ⟨found, middle, rfl, h⟩
  | error reason middle =>
    rw [hf] at h
    cases h

/-- A reading leaves the tree as it is. -/
theorem observe_ok {α : Type} {reading : StateTree → Except Breakdown α} {value : α}
    (h : observe reading tree = .ok value tree') : reading tree = .ok value ∧ tree' = tree := by
  unfold observe at h
  cases hr : reading tree with
  | ok found =>
    rw [hr] at h
    cases h
    exact ⟨rfl, rfl⟩
  | error reason =>
    rw [hr] at h
    cases h

/-- A decision links a node to its parent, which is live. -/
theorem decide_ok {address : Word} {instruction : Instruction}
    (h : StateTree.decide id address instruction tree = .ok child tree') :
    ∃ node, node.parent = some id ∧ Live tree id ∧ link node tree = .ok child tree' := by
  obtain ⟨node, middle, hget, hlink⟩ := bind_ok h
  obtain ⟨hn, rfl⟩ := observe_ok hget
  exact ⟨_, rfl, live_iff.mpr ⟨node, hn⟩, hlink⟩

/-- A phase links a node to its parent, which is live, or it leaves the tree as it
was. -/
theorem transition_ok {lenient : Bool} {answer : Transition}
    (h : transition lenient id tree = .ok answer tree') :
    (∃ child node, answer = .stepped child ∧ node.parent = some id ∧ Live tree id ∧
        link node tree = .ok child tree') ∨
      (tree' = tree ∧ ∀ child, answer ≠ .stepped child) := by
  obtain ⟨node, middle, hget, hrest⟩ := bind_ok h
  obtain ⟨hn, rfl⟩ := observe_ok hget
  obtain ⟨phase, after, hphase, hlast⟩ := bind_ok hrest
  obtain ⟨-, rfl⟩ := observe_ok hphase
  have hl : Live after id := live_iff.mpr ⟨node, hn⟩
  obtain ⟨outcome, registers, output, staged, torn⟩ := phase
  cases torn with
  | true => cases hlast
  | false =>
    cases outcome with
    | completed status =>
      cases status with
      | running =>
        obtain ⟨made, small, hextend, hmade⟩ := bind_ok hlast
        cases hmade
        obtain ⟨node, middle, hget, hlink⟩ := bind_ok hextend
        obtain ⟨-, rfl⟩ := observe_ok hget
        exact .inl ⟨made, _, rfl, rfl, hl, hlink⟩
      | exited =>
        cases hlast
        exact .inr ⟨rfl, fun _ => nofun⟩
    | needsDecision address =>
      obtain ⟨value, small, hresolve, hneeds⟩ := bind_ok hlast
      obtain ⟨-, rfl⟩ := observe_ok hresolve
      cases hneeds
      exact .inr ⟨rfl, fun _ => nofun⟩
    | failed fault =>
      cases hlast
      exact .inr ⟨rfl, fun _ => nofun⟩
    | overflowed => cases hlast

/-- A node that is linked is one live node more, and takes a new slot only where
none is free. -/
theorem link_room {node : Node} (h : link node tree = .ok id tree') :
    tree'.live = tree.live + 1 ∧
      (tree.free = [] ∧ tree'.slots.size = tree.slots.size + 1 ∨
        tree.free ≠ [] ∧ tree'.slots.size = tree.slots.size) := by
  obtain ⟨slots, free, live⟩ := tree
  cases hp : node.parent with
  | none =>
    cases free <;> simp only [link, hp, StateTree.insert] at h <;> cases h
    · exact ⟨rfl, .inl ⟨rfl, Array.size_push _⟩⟩
    · exact ⟨rfl, .inr ⟨List.cons_ne_nil _ _, Array.size_setIfInBounds⟩⟩
  | some parent =>
    cases free <;> simp only [link, hp, StateTree.addHolder, StateTree.insert] at h <;> cases h
    · exact ⟨rfl, .inl ⟨rfl, by rw [Array.size_push, Array.size_modify]⟩⟩
    · exact ⟨rfl, .inr ⟨List.cons_ne_nil _ _, by rw [Array.size_setIfInBounds, Array.size_modify]⟩⟩

/-- Giving back a handle leaves the slots where they are, and brings no node to
life. -/
theorem releaseFrom_room (h : tree.releaseFrom id = .ok () tree') :
    tree'.slots.size = tree.slots.size ∧ tree'.live ≤ tree.live := by
  fun_induction StateTree.releaseFrom tree id with
  | case1 => cases h
  | case2 => cases h
  | case3 =>
    cases h
    exact ⟨Array.size_setIfInBounds, Nat.le_refl _⟩
  | case4 => cases h
  | case5 =>
    cases h
    exact ⟨Array.size_setIfInBounds, Nat.le_succ _⟩
  | case6 _ slots free node count last emptied parent hparent hslot _ ih =>
    obtain ⟨hsize, hlive⟩ := ih h
    exact ⟨hsize.trans Array.size_setIfInBounds, Nat.le_succ_of_le hlive⟩

end Operations

section Requests

variable {client client' : Client} {past : List Client} {request : Request}

/-- What serving a request has done to a client. -/
inductive Done (client : Client) : Client → Prop where
  /-- A node has come up, below a live one unless it is a root, and its handle is
  in use. -/
  | grown {node : Node} {id : NodeId} {tree : StateTree} (edge : Edge)
      (linked : link node client.tree = .ok id tree)
      (above : ∀ parent, node.parent = some parent → Live client.tree parent) :
      Done client (client.gain tree id edge)
  /-- Nothing has changed. -/
  | same : Done client client
  /-- A handle in use has been taken once more. -/
  | retained {id : NodeId} (mem : id ∈ client.held) :
      Done client ⟨client.tree.addHolder id, id ::ₘ client.held, client.edge⟩
  /-- A handle in use has been given back. -/
  | released {id : NodeId} {tree : StateTree} (mem : id ∈ client.held)
      (gone : client.tree.releaseFrom id = .ok () tree) :
      Done client ⟨tree, client.held.erase id, client.edge⟩

/-- A request that was served has done one of these. -/
theorem serve_done (allowed : request.Allowed client.held)
    (served : client.serve request = .ok client') : Done client client' := by
  cases request with
  | root =>
    cases hr : StateTree.root client.tree with
    | error reason tree =>
      rw [Client.serve, hr] at served
      cases served
    | ok id tree =>
      rw [Client.serve, hr] at served
      cases served
      exact .grown _ hr fun _ hp => by cases hp
  | decide parent address instruction =>
    cases hd : StateTree.decide parent address instruction client.tree with
    | error reason tree =>
      rw [Client.serve, hd] at served
      cases served
    | ok id tree =>
      rw [Client.serve, hd] at served
      cases served
      obtain ⟨node, hp, hl, hlink⟩ := decide_ok hd
      exact .grown _ hlink fun above ha => Option.some.inj (hp.symm.trans ha) ▸ hl
  | transition lenient id =>
    cases ht : transition lenient id client.tree with
    | error reason tree =>
      rw [Client.serve, ht] at served
      cases served
    | ok answer tree =>
      rw [Client.serve, ht] at served
      rcases transition_ok ht with ⟨child, node, rfl, hp, hl, hlink⟩ | ⟨rfl, hstill⟩
      · cases served
        exact .grown _ hlink fun above ha => Option.some.inj (hp.symm.trans ha) ▸ hl
      · cases answer with
        | stepped child => exact absurd rfl (hstill child)
        | exited =>
          cases served
          exact .same
        | needsDecision address =>
          cases served
          exact .same
        | failed fault =>
          cases served
          exact .same
  | retain id =>
    cases served
    exact .retained (allowed id rfl)
  | release id =>
    cases hr : client.tree.releaseFrom id with
    | error reason tree =>
      rw [Client.serve, StateTree.release, hr] at served
      cases served
    | ok answer tree =>
      rw [Client.serve, StateTree.release, hr] at served
      cases served
      exact .released (allowed id rfl) hr

/-- A request brings a node to life, in a new slot only where none is free, or it
leaves the slots where they are and brings no node to life. -/
theorem Done.room (h : Done client client') :
    (client'.tree.live = client.tree.live + 1 ∧
      (client.tree.free = [] ∧ client'.tree.slots.size = client.tree.slots.size + 1 ∨
        client.tree.free ≠ [] ∧ client'.tree.slots.size = client.tree.slots.size)) ∨
      (client'.tree.slots.size = client.tree.slots.size ∧
        client'.tree.live ≤ client.tree.live) := by
  cases h with
  | grown edge linked above => exact .inl (link_room linked)
  | same => exact .inr ⟨rfl, Nat.le_refl _⟩
  | retained mem => exact .inr ⟨Array.size_modify, Nat.le_refl _⟩
  | released mem gone => exact .inr (releaseFrom_room gone)

/-- The clients that one has been, the latest first: it begins without nodes, and
from one to the next it has asked for something that it may ask for. -/
inductive History : List Client → Prop where
  /-- A client begins without nodes. -/
  | start : History [Client.fresh]
  /-- It asks for something that it may ask for. -/
  | serve {client client' : Client} {past : List Client} (before : History (client :: past))
      (request : Request) (allowed : request.Allowed client.held)
      (served : client.serve request = .ok client') : History (client' :: client :: past)

/-- What a client has come to be is reachable. -/
theorem History.reachable (h : History (client :: past)) : client.Reachable := by
  generalize hc : client :: past = history at h
  induction h generalizing client past with
  | start =>
    cases hc
    exact .start
  | serve before request allowed served ih =>
    cases hc
    exact (ih rfl).serve request allowed served

/-- As many slots as the tree has now were live at some time, and more were never
live. -/
theorem History.peak (h : History (client :: past)) :
    (∃ found ∈ client :: past, found.tree.live = client.tree.slots.size) ∧
      ∀ found ∈ client :: past, found.tree.live ≤ client.tree.slots.size := by
  generalize hc : client :: past = history at h
  induction h generalizing client past with
  | start =>
    cases hc
    exact ⟨⟨_, List.mem_cons_self, rfl⟩, fun found hm => by
      rw [List.mem_singleton.mp hm]
      exact Nat.le_refl _⟩
  | @serve client client' past before request allowed served ih =>
    cases hc
    obtain ⟨⟨top, hm, htop⟩, hle⟩ := ih rfl
    have hrooms := live_add_length_free before.reachable.sound.books
    rcases (serve_done allowed served).room with ⟨hlive, hroom⟩ | ⟨hsize, hlive⟩
    · rcases hroom with ⟨hfree, hsize⟩ | ⟨hfree, hsize⟩
      · -- Every slot was live, so the new one makes a new peak.
        rw [hfree, List.length_nil, Nat.add_zero] at hrooms
        refine ⟨⟨client', List.mem_cons_self, by omega⟩, fun found hfound => ?_⟩
        rcases List.mem_cons.mp hfound with rfl | hfound
        · omega
        · have hold := hle found hfound
          omega
      · have hpos := List.length_pos_iff.mpr hfree
        refine ⟨⟨top, List.mem_cons_of_mem _ hm, by omega⟩, fun found hfound => ?_⟩
        rcases List.mem_cons.mp hfound with rfl | hfound
        · omega
        · have hold := hle found hfound
          omega
    · refine ⟨⟨top, List.mem_cons_of_mem _ hm, by omega⟩, fun found hfound => ?_⟩
      rcases List.mem_cons.mp hfound with rfl | hfound
      · omega
      · have hold := hle found hfound
        omega

/-- A client whose tree is in order, after it has been the clients of its past. -/
structure InOrder (client : Client) (past : List Client) : Prop where
  /-- Holders of a slot are the handles of the client on it and the live nodes that
  link to it. -/
  holders_eq : ∀ id, client.tree.holders id = client.held.count id + liveLinks client.tree id
  /-- No slot is free twice. -/
  free_nodup : client.tree.free.Nodup
  /-- The free slots are those without holders. -/
  mem_free_iff : ∀ id, id ∈ client.tree.free ↔
    id < client.tree.slots.size ∧ client.tree.holders id = 0
  /-- The other slots are counted. -/
  live_eq : client.tree.live = client.tree.slots.countP isHeld
  /-- A live node links to a live one. -/
  parent_live : ∀ id node parent, client.tree.node? id = .ok node →
    node.parent = some parent → Live client.tree parent
  /-- From a live node a line leads to a root, on which no handle occurs twice. It
  is the path that is walked to look up decisions; a cell is looked up along it, and
  both come to an end. -/
  walk : ∀ id, Live client.tree id → ∃ line, Line client.tree id line ∧
    (line.map Prod.fst).Nodup ∧ client.tree.path id = .ok (nodesOf line) ∧
    client.tree.decisions id = .ok (StateTree.decisionsOf (nodesOf line)) ∧
    ∀ address, client.tree.resolve id address =
      .ok (Memory.read (memoryOf (nodesOf line)) address)
  /-- The live nodes are those on the lines of the handles of the client. -/
  live_iff : ∀ id, Live client.tree id ↔ ∃ handle ∈ client.held, OnLine client.tree handle id
  /-- Once all handles have been given back no node is live. -/
  emptied : client.held = 0 → client.tree.live = 0
  /-- There are as many slots as nodes were live at some time. -/
  peak_reached : ∃ found ∈ client :: past, found.tree.live = client.tree.slots.size
  /-- No more nodes were ever live. -/
  peak : ∀ found ∈ client :: past, found.tree.live ≤ client.tree.slots.size
  /-- Whatever the client asks for next, the request does not break down. -/
  serves : ∀ request : Request, request.Allowed client.held →
    ∃ client', client.serve request = .ok client' ∧ History (client' :: client :: past)

/-- A client that uses only handles that it holds keeps its tree in order, whatever
it asks for and in whatever order. -/
theorem history_in_order (h : History (client :: past)) : InOrder client past := by
  have hsound := h.reachable.sound
  have hb := hsound.books
  obtain ⟨hreached, hpeak⟩ := h.peak
  refine ⟨fun id => ?_, hb.free_nodup, mem_free_iff hb, hb.live_eq, fun id node parent hn hp => ?_,
    fun id hl => ?_, live_iff_onLine hb, fun hheld => ?_, hreached, hpeak, fun request allowed => ?_⟩
  · rw [liveLinks_eq hb]
    exact hb.holders_eq id
  · obtain ⟨holders, hs, -⟩ := node?_eq_ok.mp hn
    exact hb.live_of_link (Array.mem_of_getElem? hs) hp
  · obtain ⟨line, hline⟩ := hb.rooted id hl
    refine ⟨line, hline, hline.nodup, ?_, hline.decisions_eq, hline.resolve_eq⟩
    exact hline.pathWithin_eq hline.length_le
  · rw [hheld] at hb
    exact live_eq_zero hb
  · obtain ⟨client', hs, -⟩ := hsound.serve allowed
    exact ⟨client', hs, h.serve request allowed hs⟩

/-- A handle is given back by the client when the tree has taken it. -/
theorem serve_release {id : NodeId} {tree : StateTree}
    (h : client.tree.releaseFrom id = .ok () tree) :
    client.serve (.release id) = .ok ⟨tree, client.held.erase id, client.edge⟩ := by
  rw [Client.serve, StateTree.release, h]

/-- A client that decides a cell below a root and gives back first the root, then
the decided node: the root goes last, and it is its slot that the next root gets. -/
theorem history_in_order_of_reuse :
    ∃ client past, History (client :: past) ∧ InOrder client past ∧ client.held = {0} ∧
      client.tree.free = [1] ∧ client.tree.slots.size = 2 := by
  have h0 : History [Client.fresh] := .start
  have h1 := h0.serve .root nofun rfl
  have h2 := h1.serve (.decide 0 0 .noOp) (fun id hid => by cases hid; decide) rfl
  have h3 := h2.serve (.release 0) (fun id hid => by cases hid; decide)
    (serve_release (releaseFrom_shared _ _ rfl Nat.one_ne_zero))
  let below : Node := ⟨.initial, [], some ⟨0, encode 0 .noOp, .decision⟩, some 0, 1⟩
  have hbelow : StateTree.releaseFrom ⟨#[⟨.root, 1⟩, ⟨below, 1⟩], [], 2⟩ 1 =
      StateTree.releaseFrom ⟨#[⟨.root, 1⟩, ⟨.root, 0⟩], [1], 1⟩ 0 :=
    @releaseFrom_last 1 _ below [] 1 rfl
  have hroot : StateTree.releaseFrom ⟨#[⟨.root, 1⟩, ⟨.root, 0⟩], [1], 1⟩ 0 =
      .ok () ⟨#[⟨.root, 0⟩, ⟨.root, 0⟩], [0, 1], 0⟩ :=
    @releaseFrom_last 0 _ .root [1] 0 rfl
  have h4 := h3.serve (.release 1) (fun id hid => by cases hid; decide)
    (serve_release (hbelow.trans hroot))
  have h5 := h4.serve .root nofun rfl
  exact ⟨_, _, h5, history_in_order h5, by decide, rfl, rfl⟩

end Requests

end TernarySynth.Proofs.ClientHistory
