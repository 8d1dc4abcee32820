import TernarySynth.Proofs.DecidedText
import TernarySynth.Proofs.ExploredLine

/-!
# The text of a line

The decisions of a line that a search makes are a text: each cell is decided
once, and no machine gets as far as exiting, with something printed, on the
strength of the first cell alone. So whatever such a line has found can be
written out and loaded.
-/

namespace TernarySynth.Proofs.FoundText

open TritWord CellCode MemoryImage SparseMemory TernarySynth.Cycle StateTree SourceText
open CodeValues PhaseEffect LateDecision LineMachine ExploredLine DecidedText

section Collecting

/-- An entry for a new cell is added, and no other is lost. -/
theorem insertNew_perm {entry : Word × Word} {entries : List (Word × Word)}
    (hnew : entry.1 ∉ entries.map Prod.fst) :
    (StateTree.insertNew entry entries).Perm (entry :: entries) := by
  induction entries with
  | nil => exact .refl _
  | cons first rest ih =>
    rw [List.map_cons, List.mem_cons, not_or] at hnew
    rw [StateTree.insertNew]
    split
    · exact .refl _
    · rw [if_neg hnew.1]
      exact ((ih hnew.2).cons first).trans (.swap entry first rest)

/-- Collecting entries for cells that are all different keeps every one. -/
theorem foldl_insertNew_perm {entries found : List (Word × Word)}
    (hnodup : (entries.map Prod.fst).Nodup)
    (hnew : ∀ other ∈ entries, other.1 ∉ found.map Prod.fst) :
    (entries.foldl (fun found entry => StateTree.insertNew entry found) found).Perm
      (entries ++ found) := by
  induction entries generalizing found with
  | nil => exact .refl _
  | cons first rest ih =>
    rw [List.map_cons, List.nodup_cons] at hnodup
    have hperm := insertNew_perm (hnew first List.mem_cons_self)
    have hrest : ∀ other ∈ rest, other.1 ∉ (StateTree.insertNew first found).map Prod.fst := by
      intro other hm hin
      rw [(hperm.map Prod.fst).mem_iff, List.map_cons, List.mem_cons] at hin
      rcases hin with heq | hold
      · exact hnodup.1 (List.mem_map.mpr ⟨other, hm, heq⟩)
      · exact hnew other (List.mem_cons_of_mem _ hm) hold
    rw [List.foldl_cons]
    exact ((ih hnodup.2 hrest).trans (hperm.append_left rest)).trans List.perm_middle

variable {lenient : Bool} {nodes : List Node}

/-- The decisions of an explored line are those of its nodes, in another order. -/
theorem decisionsOf_perm (h : Explored lenient nodes) :
    (StateTree.decisionsOf nodes).Perm (decidedOn nodes) := by
  have hperm := @foldl_insertNew_perm (decidedOn nodes) [] h.nodup fun _ _ => nofun
  rwa [List.append_nil] at hperm

/-- So they are the same. -/
theorem mem_decisionsOf (h : Explored lenient nodes) (entry : Word × Word) :
    entry ∈ StateTree.decisionsOf nodes ↔ entry ∈ decidedOn nodes :=
  (decisionsOf_perm h).mem_iff

/-- Each cell has one value among them. -/
theorem decided_eq (h : Explored lenient nodes) {a v : Word}
    (hm : (a, v) ∈ decidedOn nodes) :
    SourceText.decided (StateTree.decisionsOf nodes) a = some v := by
  have hin := (mem_decisionsOf h (a, v)).mpr hm
  have hsingle := ((decisionsOf_perm h).map Prod.fst).nodup_iff.mpr h.nodup
  exact decided_of_mem hsingle hin

end Collecting

section Early

/-- A machine that has not run beyond the second cell, except by a jump that
cannot go on. -/
inductive Early (decisions : List (Word × Word))
    (machine : Machine SparseMemory Transcript.Transcript) : Prop where
  /-- It has not begun, and the decided cells hold what was decided. -/
  | fresh (phase_eq : machine.registers.phase = .fetch) (c_eq : machine.registers.c = 0)
      (d_eq : machine.registers.d = 0) (silent : machine.channel.output = [])
      (holds : ∀ a v, (a, v) ∈ decisions → Memory.read machine.memory a = some v)
  /-- It has executed the first cell, and may have jumped to a printable address. -/
  | executed (phase_eq : machine.registers.phase = .advance)
      (c_eq : machine.registers.c = 0 ∨ isPrintable machine.registers.c = true)
  /-- It has come to the second cell. -/
  | second (phase_eq : machine.registers.phase = .fetch) (c_eq : machine.registers.c = 1)

variable {lenient : Bool} {nodes : List Node} {decisions : List (Word × Word)}
variable {machine : Machine SparseMemory Transcript.Transcript}

/-- Deciding a cell does not make a machine run. -/
theorem Early.store (h : Early decisions machine) {address : Word}
    (hnew : address ∉ decisions.map Prod.fst) (value : Word) :
    Early ((address, value) :: decisions) (machine.store address value) := by
  rw [store_eq]
  cases h with
  | fresh phase_eq c_eq d_eq silent holds =>
    refine .fresh phase_eq c_eq d_eq silent fun a v hm => ?_
    dsimp only
    rw [PartialMemory.read_write]
    rcases List.mem_cons.mp hm with heq | hold
    · cases heq
      rw [if_pos rfl]
    · have hne : address ≠ a := by
        rintro rfl
        exact hnew (List.mem_map.mpr ⟨_, hold, rfl⟩)
      rw [if_neg hne]
      exact holds a v hold
  | executed phase_eq c_eq => exact .executed phase_eq c_eq
  | second phase_eq c_eq => exact .second phase_eq c_eq

/-- A phase that completes has read the cell under the code pointer. -/
theorem read_of_completed {M P : Type} [Memory M] [Channel P] {machine : Machine M P}
    {status : Status} (h : (step lenient machine).1 = .completed status) :
    Memory.read machine.memory machine.registers.c ≠ none := by
  intro hn
  rw [step_eq_perform, effect_of_undecided lenient hn] at h
  cases h

/-- The first instruction leaves the code pointer where it is, unless it jumps to
the address that its own value gives. -/
theorem executed_of_fresh (phase_eq : machine.registers.phase = .fetch)
    (c_eq : machine.registers.c = 0) (d_eq : machine.registers.d = 0)
    (runs : (step lenient machine).1 = .completed .running) :
    Early decisions (step lenient machine).2 := by
  rw [step_eq_perform, effect, phase_eq] at runs ⊢
  dsimp only at runs ⊢
  rcases fetchEffect_cases lenient machine.registers (Memory.read machine.memory) with
    ⟨fault, he⟩ | ⟨-, he⟩ | ⟨value, found, hv, hd, he⟩
  · rw [he] at runs
    cases runs
  · rw [he] at runs
    cases runs
  · rw [he] at runs ⊢
    obtain ⟨hphase, hc⟩ := perform_leadsTo (executeEffect_leadsTo _ _ found) runs
    refine .executed hphase (hc.imp (fun hc => hc.trans c_eq) fun hc => ?_)
    rw [d_eq, ← c_eq, hv] at hc
    rw [← Option.some.inj hc]
    exact printable_of_decode hd

/-- While no cell but the first is decided a machine stays early. -/
theorem Early.next (h : Early decisions machine)
    (narrow : ∀ a, a ≠ 0 → Memory.read machine.memory a = none)
    (runs : (step lenient machine).1 = .completed .running) :
    Early decisions (step lenient machine).2 := by
  have hread := read_of_completed runs
  cases h with
  | fresh phase_eq c_eq d_eq silent holds => exact executed_of_fresh phase_eq c_eq d_eq runs
  | executed phase_eq c_eq =>
    have hzero : machine.registers.c = 0 := by
      by_contra hne
      exact hread (narrow _ hne)
    rw [step_eq_perform, effect, phase_eq] at runs ⊢
    have hafter := perform_leadsTo (advanceEffect_leadsTo _ _) runs
    rw [hzero] at hafter
    refine .second ?_ ?_ <;> rw [hafter]
    rfl
  | second phase_eq c_eq =>
    refine absurd (narrow _ ?_) hread
    rw [c_eq]
    exact Nat.one_ne_zero

/-- Where an early machine exits it has not begun: nothing has been printed, and the first
cell is an exit. -/
theorem Early.of_exits (h : Early decisions machine)
    (narrow : ∀ a, a ≠ 0 → Memory.read machine.memory a = none)
    (exits : (step lenient machine).1 = .completed .exited) :
    machine.channel.output = [] ∧
      (∀ a v, (a, v) ∈ decisions → Memory.read machine.memory a = some v) ∧
      ∃ value, Memory.read machine.memory 0 = some value ∧
        decode lenient 0 value = some .exit := by
  have hread := read_of_completed exits
  rw [step_eq_perform] at exits
  obtain ⟨value, hv, hd⟩ := effect_halt (perform_exited exits).1
  cases h with
  | fresh phase_eq c_eq d_eq silent holds =>
    rw [c_eq] at hv hd
    exact ⟨silent, holds, value, hv, hd⟩
  | executed phase_eq c_eq =>
    have hhalt := (perform_exited exits).1
    rw [effect, phase_eq] at hhalt
    exact absurd hhalt (advanceEffect_ne_halt _ _)
  | second phase_eq c_eq =>
    refine absurd (narrow _ ?_) hread
    rw [c_eq]
    exact Nat.one_ne_zero

/-- While only the first cell is decided no other cell can be read. -/
theorem read_eq_none (h : Explored lenient nodes)
    (narrow : ∀ a v, (a, v) ∈ decidedOn nodes → a = 0) {a : Word} (ha : a ≠ 0) :
    Memory.read (machineOf nodes).memory a = none := by
  rw [← Option.not_isSome_iff_eq_none, h.decided_iff]
  rintro ⟨v, hv⟩
  exact ha (narrow a v hv)

/-- The machine of a line that has decided the first cell only is early. -/
theorem early_of_narrow (h : Explored lenient nodes)
    (narrow : ∀ a v, (a, v) ∈ decidedOn nodes → a = 0) :
    Early (decidedOn nodes) (machineOf nodes) := by
  induction h with
  | root => exact .fresh rfl rfl rfl rfl nofun
  | decided instruction before needs decision deeper machine_eq ih =>
    have hnodup := (before.decided instruction needs decision deeper machine_eq).nodup
    rw [decidedOn_some decision] at narrow hnodup ⊢
    rw [List.map_cons, List.nodup_cons] at hnodup
    rw [machine_eq]
    exact (ih fun a v hm => narrow a v (List.mem_cons_of_mem _ hm)).store hnodup.1 _
  | ran before runs decision level machine_eq ih =>
    rw [decidedOn_none decision] at narrow ⊢
    rw [machine_eq]
    exact (ih narrow).next (fun a ha => read_eq_none before narrow ha) runs

/-- A line that exits on the strength of the first cell alone has decided an exit there and
has printed nothing. -/
theorem exit_of_narrow (h : Explored lenient nodes)
    (exits : (step lenient (machineOf nodes)).1 = .completed .exited)
    (narrow : ∀ a v, (a, v) ∈ decidedOn nodes → a = 0) :
    (machineOf nodes).channel.output = [] ∧ decidedOn nodes = [(0, encode 0 .exit)] := by
  have hearly := early_of_narrow h narrow
  obtain ⟨silent, holds, value, hv, hd⟩ :=
    hearly.of_exits (fun a ha => read_eq_none h narrow ha) exits
  refine ⟨silent, ?_⟩
  have hdecided : ∃ v, (0, v) ∈ decidedOn nodes := by
    rw [← h.decided_iff, hv]
    rfl
  obtain ⟨v, hm⟩ := hdecided
  -- The value that was decided is the one that is read, so it names the exit.
  have hexit : v = encode 0 .exit := by
    obtain ⟨-, instruction, rfl⟩ := h.encoded hm
    have hread := holds _ _ hm
    rw [hv] at hread
    rw [Option.some.inj hread, decode_encode] at hd
    rw [Option.some.inj hd]
  have hfirst : ∀ entry ∈ decidedOn nodes, entry = (0, encode 0 .exit) := by
    intro entry hentry
    have hkey := narrow entry.1 entry.2 hentry
    rw [← hexit]
    exact List.inj_on_of_nodup_map h.nodup hentry hm hkey
  have hreplicate := List.eq_replicate_of_mem hfirst
  have hnodup : (decidedOn nodes).Nodup := h.nodup.of_map
  rw [hreplicate, List.nodup_replicate] at hnodup
  have hone : (decidedOn nodes).length = 1 :=
    Nat.le_antisymm hnodup (List.length_pos_of_mem hm)
  rw [hreplicate, hone]
  rfl

/-- A line that exits has decided a cell behind the first, or it is an exit and nothing
else. -/
theorem wide_or_exit (h : Explored lenient nodes)
    (exits : (step lenient (machineOf nodes)).1 = .completed .exited) :
    (∃ a v, (a, v) ∈ decidedOn nodes ∧ 1 ≤ a) ∨
      ((machineOf nodes).channel.output = [] ∧ decidedOn nodes = [(0, encode 0 .exit)]) := by
  by_cases wide : ∃ a v, (a, v) ∈ decidedOn nodes ∧ 1 ≤ a
  · exact .inl wide
  · refine .inr (exit_of_narrow h exits fun a v hm => ?_)
    by_contra ha
    exact wide ⟨a, v, hm, Nat.one_le_iff_ne_zero.mpr ha⟩

/-- The decisions of a line that has decided a cell behind the first can be written out. -/
theorem writable_of_wide (h : Explored lenient nodes)
    (wide : ∃ a v, (a, v) ∈ decidedOn nodes ∧ 1 ≤ a) : Writable (StateTree.decisionsOf nodes) := by
  refine ⟨fun a v hm => ?_, fun a v hm => ?_, ?_⟩
  · exact (h.encoded ((mem_decisionsOf h _).mp hm)).2
  · exact (h.encoded ((mem_decisionsOf h _).mp hm)).1
  · obtain ⟨a, v, hm, ha⟩ := wide
    exact ⟨a, v, (mem_decisionsOf h _).mpr hm, ha⟩

end Early

end TernarySynth.Proofs.FoundText
