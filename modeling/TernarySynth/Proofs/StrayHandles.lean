import TernarySynth.Proofs.ClientHistory

/-!
# Stray handles

A caller may use any handle that was ever given out: one that it has given back, one
whose slot is free, one whose slot has gone to another node. Reading, deciding, running
and giving back refuse a slot without holders, so whatever the caller does with them, the
free slots stay the ones without holders. Only adding a holder asks no such question. As
long as it is done to held slots the counts stay in order; the first time it is not, a
free slot has a holder, and may be given out although it is held.
-/

namespace TernarySynth.Proofs.StrayHandles

open TritWord CellCode StateTree Speculation
open TreeLine HolderBooks HandleClient ClientHistory

section Calls

/-- Do what is asked for, with whatever handle. The answer is the handle of the node that
has come up, if one has. -/
def ask : Request → TreeM (Option NodeId)
  | .root => do
    let id ← StateTree.root
    return some id
  | .decide parent address instruction => do
    let id ← StateTree.decide parent address instruction
    return some id
  | .transition lenient id => do
    match ← transition lenient id with
    | .stepped child => return some child
    | _ => return none
  | .retain id => do
    StateTree.retain id
    return none
  | .release id => do
    StateTree.release id
    return none

/-- A call that was answered. -/
structure Call where
  /-- The tree before it. -/
  before : StateTree
  /-- What was asked for. -/
  request : Request
  /-- The handle of the node that came up. -/
  made : Option NodeId
  /-- The tree after it. -/
  after : StateTree

/-- Calls that were answered one after the other, the latest first, and the tree that they
have led to. Each uses a handle that was given out by one before it. -/
inductive Performed : List Call → StateTree → Prop where
  /-- At first there are no nodes. -/
  | start : Performed [] .empty
  /-- A call is answered. -/
  | call {calls : List Call} {tree after : StateTree} {made : Option NodeId}
      (sofar : Performed calls tree) (request : Request)
      (known : ∀ id, request.handle? = some id → ∃ call ∈ calls, call.made = some id)
      (answered : ask request tree = .ok made after) :
      Performed (⟨tree, request, made, after⟩ :: calls) after

/-- A call that adds a holder to no slot without one. -/
def Careful (call : Call) : Prop := ∀ id, call.request = .retain id → Live call.before id

/-- The free slots are listed once and are those without holders, and the number of the
others is known. -/
structure Tallied (tree : StateTree) : Prop where
  /-- No slot is free twice. -/
  free_nodup : tree.free.Nodup
  /-- The free slots are those without holders. -/
  mem_free_iff : ∀ id, id ∈ tree.free ↔ id < tree.slots.size ∧ tree.holders id = 0
  /-- The other slots are counted. -/
  live_eq : tree.live = tree.slots.countP isHeld

end Calls

variable {tree tree' : StateTree} {id : NodeId} {made : Option NodeId} {request : Request}

/-- A tree that counts its slots has them tallied. -/
theorem tallied_of_counted (h : Counted tree) : Tallied tree :=
  ⟨h.free_nodup, h.mem_free_iff, h.live_eq⟩

section Operations

/-- What a call has done to a tree. -/
inductive Did (tree : StateTree) : Request → Option NodeId → StateTree → Prop where
  /-- A node has come up, below a live one unless it is a root. -/
  | grown {request : Request} {node : Node} {id : NodeId} {tree' : StateTree}
      (linked : link node tree = .ok id tree')
      (above : ∀ parent, node.parent = some parent → Live tree parent)
      (other : ∀ id, request ≠ .retain id) : Did tree request (some id) tree'
  /-- Nothing has changed. -/
  | same {request : Request} (other : ∀ id, request ≠ .retain id) : Did tree request none tree
  /-- A slot has one holder more. -/
  | retained (id : NodeId) : Did tree (.retain id) none (tree.addHolder id)
  /-- A slot has one holder less. -/
  | released {id : NodeId} {tree' : StateTree} (gone : tree.releaseFrom id = .ok () tree') :
      Did tree (.release id) none tree'

/-- A call that was answered has done one of these. -/
theorem did_of_ask (h : ask request tree = .ok made tree') : Did tree request made tree' := by
  cases request with
  | root =>
    obtain ⟨id, middle, hroot, hmade⟩ := bind_ok h
    cases hmade
    exact .grown hroot nofun nofun
  | decide parent address instruction =>
    obtain ⟨id, middle, hdecide, hmade⟩ := bind_ok h
    cases hmade
    obtain ⟨node, hparent, hlive, hlink⟩ := decide_ok hdecide
    exact .grown hlink (fun above ha => Option.some.inj (hparent.symm.trans ha) ▸ hlive) nofun
  | transition lenient id =>
    obtain ⟨answer, middle, htransition, hmade⟩ := bind_ok h
    rcases transition_ok htransition with ⟨child, node, rfl, hparent, hlive, hlink⟩ | ⟨rfl, hstill⟩
    · cases hmade
      exact .grown hlink (fun above ha => Option.some.inj (hparent.symm.trans ha) ▸ hlive) nofun
    · cases answer with
      | stepped child => exact absurd rfl (hstill child)
      | exited =>
        cases hmade
        exact .same nofun
      | needsDecision address =>
        cases hmade
        exact .same nofun
      | failed fault =>
        cases hmade
        exact .same nofun
  | retain id =>
    obtain ⟨answer, middle, hretain, hmade⟩ := bind_ok h
    cases hretain
    cases hmade
    exact .retained id
  | release id =>
    obtain ⟨answer, middle, hrelease, hmade⟩ := bind_ok h
    cases hmade
    exact .released hrelease

/-- A node that is linked below live ones leaves the slots counted. Its slot had no holder
and has one. -/
theorem counted_link {node : Node} (hc : Counted tree) (linked : link node tree = .ok id tree')
    (above : ∀ parent, node.parent = some parent → Live tree parent) :
    Counted tree' ∧ tree.holders id = 0 ∧ tree'.holders id = 1 := by
  have hfresh : ∀ {small : StateTree}, Placed small tree' id node → small.holders id = 0 ∧
      tree'.holders id = 1 := fun {small} hplaced =>
    ⟨Classical.not_not.mp hplaced.fresh, by rw [hplaced.holders_eq, if_pos rfl]⟩
  cases hparent : node.parent with
  | none =>
    have hplaced := hc.insert_placed node
    simp only [link, hparent] at linked
    cases linked
    exact ⟨hplaced.counted hc, hfresh hplaced⟩
  | some parent =>
    have hlive := above parent hparent
    have hmore := (counted_addHolder hlive).mpr hc
    have hplaced := hmore.insert_placed node
    simp only [link, hparent] at linked
    cases linked
    obtain ⟨hzero, hone⟩ := hfresh hplaced
    rw [holders_addHolder hlive] at hzero
    exact ⟨hplaced.counted hmore, by omega, hone⟩

/-- A slot that loses a holder, but not the last one, is counted as before. -/
theorem counted_lowered {slots : Array Slot} {free : List NodeId} {live count : Nat} {node : Node}
    (hc : Counted ⟨slots, free, live⟩) (hs : slots[id]? = some ⟨node, count + 1⟩)
    (shared : count ≠ 0) : Counted ⟨slots.setIfInBounds id ⟨node, count⟩, free, live⟩ := by
  have hlive := live_setIfInBounds free live hs shared
  rw [← counted_addHolder hlive, addHolder_setIfInBounds free live hs]
  exact hc

/-- A slot that loses its last holder is one of the free slots. -/
theorem counted_emptied {slots : Array Slot} {free : List NodeId} {live : Nat} {node : Node}
    (hc : Counted ⟨slots, free, live + 1⟩) (hs : slots[id]? = some ⟨node, 1⟩) :
    Counted ⟨slots.setIfInBounds id ⟨.root, 0⟩, id :: free, live⟩ :=
  (placed_setIfInBounds free live hs).counted_small hc rfl (getElem?_emptied hs)

/-- Giving back a handle, whoever it belongs to, leaves the slots counted. On the way up
every slot that goes is free before the next one loses a holder. -/
theorem counted_releaseFrom (hc : Counted tree) (gone : tree.releaseFrom id = .ok () tree') :
    Counted tree' := by
  fun_induction StateTree.releaseFrom tree id with
  | case1 => cases gone
  | case2 => cases gone
  | case3 id slots free live node count shared hs =>
    cases gone
    exact counted_lowered hc hs shared
  | case4 => cases gone
  | case5 id slots free node count last emptied live hparent hs =>
    obtain rfl : count = 0 := Classical.not_not.mp last
    cases gone
    exact counted_emptied hc hs
  | case6 id slots free node count last emptied live parent hparent hs ih =>
    obtain rfl : count = 0 := Classical.not_not.mp last
    exact ih (counted_emptied hc hs) gone

/-- A call leaves the slots counted if it is careful. The slot of a node that has come up
had no holder and has one. -/
theorem Did.counted (did : Did tree request made tree') (hc : Counted tree)
    (careful : ∀ id, request = .retain id → Live tree id) :
    Counted tree' ∧ ∀ id, made = some id → tree.holders id = 0 ∧ tree'.holders id = 1 := by
  cases did with
  | grown linked above other =>
    obtain ⟨hcounted, hzero, hone⟩ := counted_link hc linked above
    refine ⟨hcounted, fun id hid => ?_⟩
    cases hid
    exact ⟨hzero, hone⟩
  | same other => exact ⟨hc, nofun⟩
  | retained id => exact ⟨(counted_addHolder (careful id rfl)).mpr hc, nofun⟩
  | released gone => exact ⟨counted_releaseFrom hc gone, nofun⟩

/-- A holder that is added to a free slot spoils the list of free slots. -/
theorem not_tallied_addHolder (hc : Tallied tree) (inside : id < tree.slots.size)
    (unheld : ¬ Live tree id) : ¬ Tallied (tree.addHolder id) := by
  intro hspoilt
  have hfree : id ∈ tree.free := (hc.mem_free_iff id).mpr ⟨inside, Classical.not_not.mp unheld⟩
  have hzero : (tree.addHolder id).holders id = 0 := ((hspoilt.mem_free_iff id).mp hfree).2
  have hslot := slots_addHolder tree id id
  rw [if_pos rfl, Array.getElem?_eq_getElem inside, Option.map_some] at hslot
  rw [StateTree.holders, hslot] at hzero
  cases hzero

/-- No slot is ever taken away. -/
theorem Did.size_le (did : Did tree request made tree') :
    tree.slots.size ≤ tree'.slots.size := by
  cases did with
  | grown linked above other =>
    obtain ⟨-, ⟨-, hsize⟩ | ⟨-, hsize⟩⟩ := link_room linked
    · omega
    · omega
  | same other => exact Nat.le_refl _
  | retained id => exact Nat.le_of_eq Array.size_modify.symm
  | released gone => exact Nat.le_of_eq (releaseFrom_room gone).1.symm

/-- Nothing is read from a slot without holders. -/
theorem node?_of_unheld (unheld : ¬ Live tree id) : tree.node? id = .error (.released id) := by
  have hzero : tree.holders id = 0 := Classical.not_not.mp unheld
  unfold StateTree.holders at hzero
  unfold StateTree.node?
  cases hs : tree.slots[id]? with
  | none => rfl
  | some slot =>
    rw [hs] at hzero
    exact if_pos hzero

/-- Nothing is given back to a slot without holders. -/
theorem releaseFrom_of_unheld (unheld : ¬ Live tree id) :
    tree.releaseFrom id = .error (.releasedTwice id) tree := by
  have hzero : tree.holders id = 0 := Classical.not_not.mp unheld
  obtain ⟨slots, free, live⟩ := tree
  unfold StateTree.holders at hzero
  cases hs : slots[id]? with
  | none => rw [StateTree.releaseFrom, hs]
  | some slot =>
    obtain ⟨node, holders⟩ := slot
    simp only [hs] at hzero
    rw [hzero] at hs
    rw [StateTree.releaseFrom, hs]

/-- An operation does not go on after it has broken down. -/
theorem bind_error {α β : Type} {first : TreeM α} {next : α → TreeM β} {reason : Breakdown}
    (h : first tree = .error reason tree') : (first >>= next) tree = .error reason tree' := by
  simp only [bind, EStateM.bind, h]

/-- Every call but one refuses a slot without holders, and changes nothing. -/
theorem ask_of_unheld (uses : request.handle? = some id) (unheld : ¬ Live tree id)
    (other : ∀ id, request ≠ .retain id) : ∃ reason, ask request tree = .error reason tree := by
  have hget : StateTree.get id tree = .error (.released id) tree := by
    simp only [StateTree.get, observe, node?_of_unheld unheld]
  cases request with
  | root => cases uses
  | decide parent address instruction =>
    cases uses
    exact ⟨_, bind_error (bind_error hget)⟩
  | transition lenient parent =>
    cases uses
    exact ⟨_, bind_error (bind_error hget)⟩
  | retain id => exact absurd rfl (other id)
  | release parent =>
    cases uses
    exact ⟨_, bind_error (releaseFrom_of_unheld unheld)⟩

end Operations

section Histories

variable {calls recent past : List Call} {call : Call}

/-- Careful calls leave the slots counted at all times, and every handle that they have
given out has a slot. -/
theorem Performed.counted (h : Performed calls tree) (careful : ∀ call ∈ calls, Careful call) :
    Counted tree ∧
      (∀ call ∈ calls, Counted call.after ∧
        ∀ id, call.made = some id → call.before.holders id = 0 ∧ call.after.holders id = 1) ∧
      ∀ call ∈ calls, ∀ id, call.made = some id → id < tree.slots.size := by
  induction h with
  | start => exact ⟨counted_empty, nofun, nofun⟩
  | @call calls tree after made sofar request known answered ih =>
    have hhere := careful _ List.mem_cons_self
    obtain ⟨hcounted, hpast, hinside⟩ := ih fun call hm => careful call (List.mem_cons_of_mem _ hm)
    have hdid := did_of_ask answered
    have hstep := hdid.counted hcounted hhere
    have hsize := hdid.size_le
    refine ⟨hstep.1, fun call hm => ?_, fun call hm id hid => ?_⟩
    · rcases List.mem_cons.mp hm with rfl | hm
      · exact hstep
      · exact hpast call hm
    · rcases List.mem_cons.mp hm with rfl | hm
      · have hone := (hstep.2 id hid).2
        have hlive : Live after id := by
          unfold Live
          omega
        exact hlive.lt_size
      · exact Nat.lt_of_lt_of_le (hinside call hm id hid) hsize

/-- Where the free slots have been those without holders at all times, every call was
careful: the first that was not would have shown at once. -/
theorem Performed.careful (h : Performed calls tree)
    (tallied : ∀ call ∈ calls, Tallied call.after) : ∀ call ∈ calls, Careful call := by
  induction h with
  | start => nofun
  | @call calls tree after made sofar request known answered ih =>
    have hpast := ih fun call hm => tallied call (List.mem_cons_of_mem _ hm)
    obtain ⟨hcounted, -, hinside⟩ := sofar.counted hpast
    intro call hm
    rcases List.mem_cons.mp hm with rfl | hm
    · intro id hid
      dsimp only at hid
      subst hid
      by_contra hunheld
      obtain ⟨earlier, hm, hmade⟩ := known id rfl
      have hspoilt := not_tallied_addHolder (tallied_of_counted hcounted)
        (hinside earlier hm id hmade) hunheld
      have hafter := tallied _ List.mem_cons_self
      cases did_of_ask answered with
      | grown linked above other => exact other id rfl
      | same other => exact other id rfl
      | retained => exact hspoilt hafter
    · exact hpast call hm

/-- The calls before one of them have led to the tree that it was made on. -/
theorem Performed.made_on (h : Performed (recent ++ call :: past) tree) :
    Performed past call.before := by
  induction recent generalizing tree with
  | nil =>
    cases h with
    | call sofar request known answered => exact sofar
  | cons last recent ih =>
    cases h with
    | call sofar request known answered => exact ih sofar

/-- A node that has lost all its holders has lost the last of them in one of the calls. -/
theorem Performed.given_back (h : Performed (recent ++ call :: past) tree)
    (held : Live call.after id) (unheld : ¬ Live tree id) :
    ∃ last ∈ recent, Live last.before id ∧ ¬ Live last.after id := by
  induction recent generalizing tree with
  | nil =>
    cases h with
    | call sofar request known answered => exact absurd held unheld
  | cons last recent ih =>
    cases h with
    | @call _ before _ _ sofar request known answered =>
      by_cases hbefore : Live before id
      · exact ⟨_, List.mem_cons_self, hbefore, unheld⟩
      · obtain ⟨found, hm, hfound⟩ := ih sofar hbefore
        exact ⟨found, List.mem_cons_of_mem _ hm, hfound⟩

/-- What misuse of handles can do. The free slots stay those without holders, and the
others are counted, exactly as long as no holder is added to a slot without one. Until
then a node comes up only in a slot without holders; so of two nodes that come up in one
slot the earlier has lost its last holder before the later comes. All other calls refuse
a slot without holders. -/
theorem misuse_detected_or_survived (h : Performed calls tree) :
    ((∀ call ∈ calls, Tallied call.after) ↔ ∀ call ∈ calls, Careful call) ∧
    ((∀ call ∈ calls, Careful call) →
      (∀ call ∈ calls, ∀ id, call.made = some id →
        call.before.holders id = 0 ∧ call.after.holders id = 1) ∧
      ∀ recent later between earlier past id,
        calls = recent ++ later :: (between ++ earlier :: past) →
        later.made = some id → earlier.made = some id →
        ∃ last ∈ between, Live last.before id ∧ ¬ Live last.after id) ∧
    ∀ request id, request.handle? = some id → ¬ Live tree id →
      request = .retain id ∨ ∃ reason, ask request tree = .error reason tree := by
  refine ⟨⟨h.careful, fun careful call hm => ?_⟩, fun careful => ?_, fun request id uses unheld => ?_⟩
  · exact tallied_of_counted ((h.counted careful).2.1 call hm).1
  · have hmade : ∀ call ∈ calls, ∀ id, call.made = some id →
        call.before.holders id = 0 ∧ call.after.holders id = 1 :=
      fun call hm => ((h.counted careful).2.1 call hm).2
    refine ⟨hmade, fun recent later between earlier past id hcalls hlater hearlier => ?_⟩
    subst hcalls
    have hzero := (hmade later (by simp) id hlater).1
    have hone := (hmade earlier (by simp) id hearlier).2
    have held : Live earlier.after id := by rw [Live, hone]; exact Nat.one_ne_zero
    exact h.made_on.given_back held fun hlive => hlive hzero
  · by_cases hretain : ∃ other, request = .retain other
    · obtain ⟨other, rfl⟩ := hretain
      cases uses
      exact .inl rfl
    · exact .inr (ask_of_unheld uses unheld fun other ho => hretain ⟨other, ho⟩)

/-- A handle that can be given back is. -/
theorem ask_release (h : tree.releaseFrom id = .ok () tree') :
    ask (.release id) tree = .ok none tree' := by
  simp only [ask, StateTree.release, bind, EStateM.bind, h]
  rfl

/-- A call may use what one of the calls before it has given out. -/
theorem known_of_mem (call : Call) (uses : request.handle? = some id) (mem : call ∈ calls)
    (gave : call.made = some id) :
    ∀ other, request.handle? = some other → ∃ call ∈ calls, call.made = some other := by
  intro other ho
  cases uses.symm.trans ho
  exact ⟨call, mem, gave⟩

/-- A root is given back once too often, below a node that still links to it. A new root
comes up in its slot, and the old handle adds a holder to that: the counts are in order
throughout. -/
theorem misuse_detected_or_survived_of_reuse : ∃ calls tree, Performed calls tree ∧
    calls.map Call.request =
      [.retain 0, .root, .release 0, .release 0, .decide 0 0 .noOp, .root] ∧
    calls.map Call.made = [none, some 0, none, none, some 1, some 0] ∧
    ∀ call ∈ calls, Tallied call.after := by
  let child : Node := ⟨.initial, [], some ⟨0, encode 0 .noOp, .decision⟩, some 0, 1⟩
  let one : StateTree := ⟨#[⟨.root, 1⟩], [], 1⟩
  let both : StateTree := ⟨#[⟨.root, 2⟩, ⟨child, 1⟩], [], 2⟩
  let linked : StateTree := ⟨#[⟨.root, 1⟩, ⟨child, 1⟩], [], 2⟩
  let orphaned : StateTree := ⟨#[⟨.root, 0⟩, ⟨child, 1⟩], [0], 1⟩
  let created : Call := ⟨.empty, .root, some 0, one⟩
  let decided : Call := ⟨one, .decide 0 0 .noOp, some 1, both⟩
  let lowered : Call := ⟨both, .release 0, none, linked⟩
  let emptied : Call := ⟨linked, .release 0, none, orphaned⟩
  let reused : Call := ⟨orphaned, .root, some 0, linked⟩
  let raised : Call := ⟨linked, .retain 0, none, both⟩
  have hcreated : Performed [created] one := .call .start .root nofun rfl
  have hdecided : Performed [decided, created] both :=
    hcreated.call _ (known_of_mem created rfl (by simp) rfl) rfl
  have hlowered : Performed [lowered, decided, created] linked :=
    hdecided.call _ (known_of_mem created rfl (by simp) rfl)
      (ask_release (releaseFrom_shared _ _ rfl Nat.one_ne_zero))
  have hemptied : Performed [emptied, lowered, decided, created] orphaned :=
    hlowered.call _ (known_of_mem created rfl (by simp) rfl)
      (ask_release (@releaseFrom_last 0 _ .root [] 1 rfl))
  have hreused : Performed [reused, emptied, lowered, decided, created] linked :=
    hemptied.call _ nofun rfl
  have hraised : Performed [raised, reused, emptied, lowered, decided, created] both :=
    hreused.call _ (known_of_mem created rfl (by simp) rfl) rfl
  refine ⟨_, _, hraised, rfl, rfl, (misuse_detected_or_survived hraised).1.mpr ?_⟩
  intro call hm id hid
  simp only [List.mem_cons, List.not_mem_nil, or_false] at hm
  rcases hm with rfl | rfl | rfl | rfl | rfl | rfl <;> cases hid
  exact Nat.one_ne_zero

/-- A free slot that has been given a holder is given out to two nodes, although the first
of them is still held. -/
theorem free_slot_given_out_twice : ∃ calls tree, Performed calls tree ∧
    calls.map Call.request =
      [.root, .root, .release 0, .retain 0, .release 0, .root, .root] ∧
    calls.map Call.made = [some 0, some 0, none, none, none, some 1, some 0] ∧
    (∃ call ∈ calls, call.made = some 0 ∧ call.before.holders 0 = 1) ∧
    ∃ call ∈ calls, ¬ Tallied call.after := by
  let one : StateTree := ⟨#[⟨.root, 1⟩], [], 1⟩
  let two : StateTree := ⟨#[⟨.root, 1⟩, ⟨.root, 1⟩], [], 2⟩
  let emptied : StateTree := ⟨#[⟨.root, 0⟩, ⟨.root, 1⟩], [0], 1⟩
  let spoilt : StateTree := ⟨#[⟨.root, 1⟩, ⟨.root, 1⟩], [0], 1⟩
  let doubled : StateTree := ⟨#[⟨.root, 0⟩, ⟨.root, 1⟩], [0, 0], 0⟩
  let created : Call := ⟨.empty, .root, some 0, one⟩
  let other : Call := ⟨one, .root, some 1, two⟩
  let freed : Call := ⟨two, .release 0, none, emptied⟩
  let raised : Call := ⟨emptied, .retain 0, none, spoilt⟩
  let again : Call := ⟨spoilt, .release 0, none, doubled⟩
  let first : Call := ⟨doubled, .root, some 0, spoilt⟩
  let second : Call := ⟨spoilt, .root, some 0, two⟩
  have hcreated : Performed [created] one := .call .start .root nofun rfl
  have hother : Performed [other, created] two := hcreated.call _ nofun rfl
  have hfreed : Performed [freed, other, created] emptied :=
    hother.call _ (known_of_mem created rfl (by simp) rfl)
      (ask_release (@releaseFrom_last 0 _ .root [] 1 rfl))
  have hraised : Performed [raised, freed, other, created] spoilt :=
    hfreed.call _ (known_of_mem created rfl (by simp) rfl) rfl
  have hagain : Performed [again, raised, freed, other, created] doubled :=
    hraised.call _ (known_of_mem created rfl (by simp) rfl)
      (ask_release (@releaseFrom_last 0 _ .root [0] 0 rfl))
  have hfirst : Performed [first, again, raised, freed, other, created] spoilt :=
    hagain.call _ nofun rfl
  have hsecond : Performed [second, first, again, raised, freed, other, created] two :=
    hfirst.call _ nofun rfl
  refine ⟨_, _, hsecond, rfl, rfl, ⟨second, by simp, rfl, rfl⟩, raised, by simp, fun htallied => ?_⟩
  have hzero : spoilt.holders 0 = 0 := ((htallied.mem_free_iff 0).mp List.mem_cons_self).2
  cases hzero

end Histories

end TernarySynth.Proofs.StrayHandles
