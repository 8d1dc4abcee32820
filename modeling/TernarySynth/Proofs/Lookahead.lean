import Mathlib.Algebra.Ring.Nat
import Mathlib.Data.Finite.Prod
import Mathlib.Data.FinEnum
import Mathlib.Data.Fintype.Pigeonhole
import Mathlib.Data.Set.Finite.Lattice
import Mathlib.Data.Set.Finite.List
import TernarySynth.Proofs.ExploredLine
import TernarySynth.TargetSearch

/-!
# Looking ahead from a node

The expansion of a node is settled by the machine of its line alone: the machine
runs for as long as its phases complete and its output can still become the
target, and the state where this ends decides what the node comes to. A run that
comes back to a state goes on for ever, and since there are finitely many states
that a run can be in, every other run ends.
-/

namespace TernarySynth.Proofs.Lookahead

open TritWord MemoryImage SparseMemory TernarySynth.Cycle TargetSearch
open PhaseEffect LateDecision LineMachine WordRange ExploredLine

/-- A machine as a line of nodes stands for one. -/
abbrev LineMachine := Machine SparseMemory Transcript.Transcript

/-- What the expansion of a node comes to. -/
inductive Fate where
  /-- Nothing comes of it. -/
  | dies
  /-- This machine exits and has printed the target. -/
  | succeeds (machine : LineMachine)
  /-- This machine asks for a cell. -/
  | asks (address : Word) (machine : LineMachine)

/-- The machine after the next phase, if the run goes on. -/
def onward (target : Target) (machine : LineMachine) : Option LineMachine :=
  match step target.lenient machine with
  | (.completed .running, next) => if target.onTrack next.channel.output then some next else none
  | _ => none

/-- What a machine comes to whose run does not go on. -/
def settle (target : Target) (machine : LineMachine) : Fate :=
  match (step target.lenient machine).1 with
  | .completed .exited =>
    if target.isMet machine.channel.output then .succeeds machine else .dies
  | .needsDecision address => .asks address machine
  | _ => .dies

/-- What a machine comes to within a number of phases. -/
def fate (target : Target) : Nat → LineMachine → Option Fate
  | 0, _ => none
  | phases + 1, machine =>
    match onward target machine with
    | some next => fate target phases next
    | none => some (settle target machine)

/-- The machine a number of phases ahead, if the run goes on until there. -/
def ahead (target : Target) : Nat → LineMachine → Option LineMachine
  | 0, machine => some machine
  | phases + 1, machine => (onward target machine).bind (ahead target phases)

variable {target : Target} {machine next : LineMachine}

/-- A run that goes on has completed a phase and is on track. -/
theorem onward_eq_some : onward target machine = some next ↔
    step target.lenient machine = (.completed .running, next) ∧
      target.onTrack next.channel.output = true := by
  unfold onward
  split
  next found hs =>
    rw [hs, Prod.mk.injEq, Option.ite_none_right_eq_some]
    constructor
    · rintro ⟨ht, heq⟩
      cases heq
      exact ⟨⟨rfl, rfl⟩, ht⟩
    · rintro ⟨⟨-, rfl⟩, ht⟩
      exact ⟨ht, rfl⟩
  next hs =>
    constructor
    · nofun
    · rintro ⟨heq, -⟩
      exact absurd heq (hs next)

/-- Where a run stops it is settled. -/
theorem fate_of_stops (h : (step target.lenient machine).1 ≠ .completed .running)
    (phases : Nat) : fate target (phases + 1) machine = some (settle target machine) := by
  cases ho : onward target machine with
  | none => simp only [fate, ho]
  | some next =>
    rw [(onward_eq_some.mp ho).1] at h
    exact absurd rfl h

/-- Where a phase completes, the run goes on as long as its output is on track. -/
theorem fate_of_runs (h : step target.lenient machine = (.completed .running, next))
    (phases : Nat) :
    fate target (phases + 1) machine =
      if target.onTrack next.channel.output then fate target phases next else some .dies := by
  by_cases ht : target.onTrack next.channel.output = true
  · simp only [fate, onward_eq_some.mpr ⟨h, ht⟩, if_pos ht]
  · simp only [fate, onward, settle, h, if_neg ht]

/-- What a run comes to is what a machine ahead comes to that does not go on. -/
theorem fate_eq_some {phases : Nat} {found : Fate} (h : fate target phases machine = some found) :
    ∃ i last, ahead target i machine = some last ∧ onward target last = none ∧
      settle target last = found := by
  induction phases generalizing machine with
  | zero => cases h
  | succ phases ih =>
    rw [fate] at h
    cases ho : onward target machine with
    | none =>
      rw [ho] at h
      exact ⟨0, machine, rfl, ho, Option.some.inj h⟩
    | some next =>
      rw [ho] at h
      obtain ⟨i, last, hi, hl⟩ := ih h
      refine ⟨i + 1, last, ?_, hl⟩
      rw [ahead, ho]
      exact hi

/-- A run that succeeds ends in a machine that exits and has printed the
target. -/
theorem exits_of_succeeds {phases : Nat} {last : LineMachine}
    (h : fate target phases machine = some (.succeeds last)) :
    (step target.lenient last).1 = .completed .exited ∧
      target.isMet last.channel.output = true := by
  obtain ⟨-, found, -, -, hs⟩ := fate_eq_some h
  unfold settle at hs
  split at hs
  next ho =>
    split at hs
    next hm =>
      cases hs
      exact ⟨ho, hm⟩
    next => cases hs
  next => cases hs
  next => cases hs

/-- A run is settled within a number of phases, or it goes on for as many. -/
theorem fate_eq_none_iff (phases : Nat) :
    fate target phases machine = none ↔ (ahead target phases machine).isSome := by
  induction phases generalizing machine with
  | zero => simp only [fate, ahead, Option.isSome_some]
  | succ phases ih =>
    simp only [fate, ahead]
    cases onward target machine with
    | none => simp only [reduceCtorEq, Option.bind_none, Option.isSome_none, Bool.false_eq_true]
    | some next => exact ih

/-- Once a run is settled, more phases do not change what it comes to. -/
theorem fate_mono {phases more : Nat} (h : phases ≤ more) {found : Fate}
    (hf : fate target phases machine = some found) : fate target more machine = some found := by
  induction phases generalizing machine more with
  | zero => cases hf
  | succ phases ih =>
    obtain ⟨more, rfl⟩ : ∃ k, more = k + 1 := Nat.exists_eq_succ_of_ne_zero (by omega)
    simp only [fate] at hf ⊢
    cases ho : onward target machine with
    | none => rwa [ho] at hf
    | some next =>
      rw [ho] at hf
      exact ih (by omega) hf

/-- Looking ahead in two portions. -/
theorem ahead_add (i j : Nat) :
    ahead target (i + j) machine = (ahead target i machine).bind (ahead target j) := by
  induction i generalizing machine with
  | zero => rw [Nat.zero_add, ahead, Option.bind_some]
  | succ i ih =>
    rw [Nat.succ_add]
    simp only [ahead]
    cases onward target machine with
    | none => rfl
    | some next => exact ih

/-- A run that goes on for a while goes on for any shorter while. -/
theorem ahead_isSome_of_le {i j : Nat} (hij : i ≤ j) (h : (ahead target j machine).isSome) :
    (ahead target i machine).isSome := by
  obtain ⟨k, rfl⟩ := Nat.exists_eq_add_of_le hij
  rw [ahead_add] at h
  cases hi : ahead target i machine with
  | none =>
    rw [hi] at h
    cases h
  | some found => rfl

section Recurrence

variable {one other : LineMachine}

/-- Alike machines go on alike. -/
theorem alike_onward (h : Alike one other) (ho : onward target one = some next) :
    ∃ next', onward target other = some next' ∧ Alike next next' := by
  obtain ⟨hs, ht⟩ := onward_eq_some.mp ho
  obtain ⟨hout, hn⟩ := h.step target.lenient
  rw [hs] at hout hn
  refine ⟨(step target.lenient other).2, onward_eq_some.mpr ⟨?_, ?_⟩, hn⟩
  · exact Prod.ext hout rfl
  · rw [hn.channel_eq]
    exact ht

/-- Alike machines look ahead alike. -/
theorem alike_ahead (h : Alike one other) {phases : Nat}
    (ha : ahead target phases one = some next) :
    ∃ next', ahead target phases other = some next' ∧ Alike next next' := by
  induction phases generalizing one other with
  | zero =>
    cases ha
    exact ⟨other, rfl, h⟩
  | succ phases ih =>
    simp only [ahead, Option.bind_eq_some_iff] at ha ⊢
    obtain ⟨middle, hm, ha⟩ := ha
    obtain ⟨middle', hm', hn⟩ := alike_onward h hm
    obtain ⟨next', ha', hn'⟩ := ih hn ha
    exact ⟨next', ⟨middle', hm', ha'⟩, hn'⟩

/-- A run recurs when it goes on to a state that it was in before: the same
registers, the same output, the same cells. -/
def Recurs (target : Target) (machine : LineMachine) : Prop :=
  ∃ i j one other, i < j ∧ ahead target i machine = some one ∧
    ahead target j machine = some other ∧ Alike one other

/-- A run goes on for ever from a state to which it comes back. -/
theorem ahead_isSome_of_period {period : Nat} (hp : 0 < period) (h : Alike one other)
    (hone : ahead target period one = some other) (phases : Nat) :
    (ahead target phases one).isSome := by
  induction phases using Nat.strong_induction_on with
  | _ phases ih =>
    by_cases hle : phases ≤ period
    · refine ahead_isSome_of_le hle ?_
      rw [hone]
      rfl
    · obtain ⟨rest, rfl⟩ := Nat.exists_eq_add_of_le (Nat.le_of_not_le hle)
      obtain ⟨last, hlast⟩ := Option.isSome_iff_exists.mp (ih rest (by omega))
      obtain ⟨last', hlast', -⟩ := alike_ahead h hlast
      rw [ahead_add, hone, Option.bind_some, hlast']
      rfl

/-- A run that recurs goes on for ever. -/
theorem Recurs.ahead_isSome (h : Recurs target machine) (phases : Nat) :
    (ahead target phases machine).isSome := by
  obtain ⟨i, j, one, other, hij, hi, hj, halike⟩ := h
  obtain ⟨period, rfl⟩ := Nat.exists_eq_add_of_le hij.le
  rw [ahead_add, hi, Option.bind_some] at hj
  have hone := ahead_isSome_of_period (by omega) halike hj phases
  refine ahead_isSome_of_le (Nat.le_add_left phases i) ?_
  rw [ahead_add, hi, Option.bind_some]
  exact hone

end Recurrence

section Finiteness

/-- There are words. -/
instance : NeZero wordSize := ⟨by decide⟩

/-- There are two phases. -/
instance : Finite Phase :=
  Finite.of_injective (fun phase => decide (phase = .fetch)) fun one other => by
    cases one <;> cases other <;> simp

/-- What there is to tell apart about a machine whose decided cells are among
`cells`: its phase and pointers, its output, and the cells. -/
def snapshot (cells : List Word) (machine : LineMachine) :
    (Phase × Fin wordSize × Fin wordSize × Fin wordSize) × List UInt8 ×
      List (Option (Fin wordSize)) :=
  ((machine.registers.phase, Fin.ofNat wordSize machine.registers.a,
      Fin.ofNat wordSize machine.registers.c, Fin.ofNat wordSize machine.registers.d),
    machine.channel.output,
    cells.map fun a => (Memory.read machine.memory a).map (Fin.ofNat wordSize))

/-- There are finitely many snapshots with outputs of bounded length. -/
theorem finite_snapshots (cells : List Word) (bound : Nat) :
    {found | ∃ machine : LineMachine, machine.channel.output.length ≤ bound ∧
      snapshot cells machine = found}.Finite := by
  have hall : (Set.univ ×ˢ ({output : List UInt8 | output.length ≤ bound} ×ˢ
      {values : List (Option (Fin wordSize)) | values.length = cells.length}) :
      Set ((Phase × Fin wordSize × Fin wordSize × Fin wordSize) × List UInt8 ×
        List (Option (Fin wordSize)))).Finite :=
    Set.finite_univ.prod ((List.finite_length_le UInt8 bound).prod
      (List.finite_length_eq (Option (Fin wordSize)) cells.length))
  refine hall.subset ?_
  rintro _ ⟨machine, hlen, rfl⟩
  exact ⟨Set.mem_univ _, hlen, List.length_map _⟩

/-- Words with the same remainder are the same. -/
theorem ofNat_inj {v w : Word} (hv : v < wordSize) (hw : w < wordSize)
    (h : Fin.ofNat wordSize v = Fin.ofNat wordSize w) : v = w := by
  have he := congrArg Fin.val h
  rwa [Fin.val_ofNat, Fin.val_ofNat, Nat.mod_eq_of_lt hv, Nat.mod_eq_of_lt hw] at he

/-- Cells of the range with the same remainders are the same. -/
theorem map_ofNat_inj {one other : Option Word} (hone : ∀ v, one = some v → v < wordSize)
    (hother : ∀ v, other = some v → v < wordSize)
    (h : one.map (Fin.ofNat wordSize) = other.map (Fin.ofNat wordSize)) : one = other := by
  cases one with
  | none =>
    cases other with
    | none => rfl
    | some w => cases h
  | some v =>
    cases other with
    | none => cases h
    | some w => rw [ofNat_inj (hone v rfl) (hother w rfl) (Option.some.inj h)]

/-- Machines of a search with the same snapshot are alike. -/
theorem alike_of_snapshot {cells : List Word} {one other : LineMachine} (h : Searching one)
    (h' : Searching other)
    (hcells : ∀ a, (Memory.read one.memory a).isSome → a ∈ cells)
    (hcells' : ∀ a, (Memory.read other.memory a).isSome → a ∈ cells)
    (hs : snapshot cells one = snapshot cells other) : Alike one other := by
  obtain ⟨⟨a, c, d, phase⟩, memory, output, input⟩ := one
  obtain ⟨⟨a', c', d', phase'⟩, memory', output', input'⟩ := other
  simp only [snapshot, Prod.mk.injEq] at hs
  obtain ⟨⟨hp, ha, hc, hd⟩, hout, hmem⟩ := hs
  obtain ⟨⟨⟨hra, hrc, hrd⟩, hm⟩, hi⟩ := h
  obtain ⟨⟨⟨hra', hrc', hrd'⟩, hm'⟩, hi'⟩ := h'
  dsimp only at *
  refine ⟨?_, ?_, fun b => ?_⟩
  · rw [hp, ofNat_inj hra hra' ha, ofNat_inj hrc hrc' hc, ofNat_inj hrd hrd' hd]
  · rw [hout, hi, hi']
  · by_cases hb : b ∈ cells
    · exact (map_ofNat_inj (hm b) (hm' b) (List.map_inj_left.mp hmem b hb)).symm
    · have hn := Option.not_isSome_iff_eq_none.mp fun hs => hb (hcells b hs)
      have hn' := Option.not_isSome_iff_eq_none.mp fun hs => hb (hcells' b hs)
      exact hn'.trans hn.symm

/-- An output that can still become the target is not longer than it. -/
theorem length_le_of_onTrack {output : List UInt8} (h : target.onTrack output = true) :
    output.length ≤ target.bytes.length := by
  unfold Target.onTrack at h
  cases hl : output.getLast? with
  | none =>
    rw [List.getLast?_eq_none_iff.mp hl]
    exact Nat.zero_le _
  | some last =>
    rw [hl] at h
    cases hw : target.bytes[output.length - 1]? with
    | none =>
      rw [hw] at h
      cases h
    | some wanted =>
      have hlt := (List.getElem?_eq_some_iff.mp hw).1
      omega

/-- What going on keeps: the machine is one of a search, with the same decided
cells, and its output is not longer than the target. -/
theorem onward_keeps (h : Searching machine) (ho : onward target machine = some next) :
    Searching next ∧ (∀ a, (Memory.read next.memory a).isSome ↔
      (Memory.read machine.memory a).isSome) ∧
      next.channel.output.length ≤ target.bytes.length := by
  obtain ⟨hs, ht⟩ := onward_eq_some.mp ho
  have hnext : next = (step target.lenient machine).2 := by rw [hs]
  refine ⟨?_, fun a => ?_, length_le_of_onTrack ht⟩
  · rw [hnext]
    exact (h.step target.lenient).1
  · rw [hnext]
    exact decided_step target.lenient machine a

/-- Looking ahead by at least one phase keeps the same. -/
theorem ahead_keeps (h : Searching machine) {phases : Nat}
    (ha : ahead target (phases + 1) machine = some next) :
    Searching next ∧ (∀ a, (Memory.read next.memory a).isSome ↔
      (Memory.read machine.memory a).isSome) ∧
      next.channel.output.length ≤ target.bytes.length := by
  induction phases generalizing machine with
  | zero =>
    simp only [ahead, Option.bind_fun_some] at ha
    exact onward_keeps h ha
  | succ phases ih =>
    rw [ahead, Option.bind_eq_some_iff] at ha
    obtain ⟨middle, hm, ha⟩ := ha
    obtain ⟨hs, hd, -⟩ := onward_keeps h hm
    obtain ⟨hs', hd', hl⟩ := ih hs ha
    exact ⟨hs', fun a => (hd' a).trans (hd a), hl⟩

/-- A decided cell was written. -/
theorem mem_history_of_isSome {memory : SparseMemory} {a : Word}
    (h : (Memory.read memory a).isSome) : a ∈ memory.history.map Prod.fst := by
  change ((memory.history.find? fun entry => entry.1 == a).map Prod.snd).isSome at h
  rw [Option.isSome_map, List.find?_isSome] at h
  obtain ⟨entry, hm, he⟩ := h
  exact List.mem_map.mpr ⟨entry, hm, beq_iff_eq.mp he⟩

/-- A run that goes on for ever comes back to a state. The snapshots of its
machines from the first phase on are among finitely many. -/
theorem recurs_of_ahead (h : Searching machine)
    (hall : ∀ phases, (ahead target phases machine).isSome) : Recurs target machine := by
  let cells := machine.memory.history.map Prod.fst
  have hcells : ∀ a, (Memory.read machine.memory a).isSome → a ∈ cells := fun a ha =>
    mem_history_of_isSome ha
  let reached (phases : Nat) : LineMachine := (ahead target (phases + 1) machine).get (hall (phases + 1))
  have hat : ∀ phases, ahead target (phases + 1) machine = some (reached phases) := by
    intro phases
    exact (Option.some_get _).symm
  let bound := target.bytes.length
  have hfin := finite_snapshots cells bound
  have : Finite {found | ∃ machine : LineMachine, machine.channel.output.length ≤ bound ∧
      snapshot cells machine = found} := hfin
  let shot (phases : Nat) : {found | ∃ machine : LineMachine,
      machine.channel.output.length ≤ bound ∧ snapshot cells machine = found} :=
    ⟨snapshot cells (reached phases), reached phases, (ahead_keeps h (hat phases)).2.2, rfl⟩
  have hpair : ∀ i j, i < j → shot i = shot j → Recurs target machine := by
    intro i j hij hshot
    obtain ⟨hi, hdi, -⟩ := ahead_keeps h (hat i)
    obtain ⟨hj, hdj, -⟩ := ahead_keeps h (hat j)
    refine ⟨i + 1, j + 1, reached i, reached j, by omega, hat i, hat j, ?_⟩
    exact alike_of_snapshot hi hj (fun a ha => hcells a ((hdi a).mp ha))
      (fun a ha => hcells a ((hdj a).mp ha)) (congrArg Subtype.val hshot)
  obtain ⟨i, j, hij, hshot⟩ := Finite.exists_ne_map_eq_of_infinite shot
  rcases Nat.lt_or_gt_of_ne hij with hlt | hgt
  · exact hpair i j hlt hshot
  · exact hpair j i hgt hshot.symm

end Finiteness

/-- The run of a machine of a search is settled after some number of phases,
unless it recurs. -/
theorem settles_iff_not_recurs (h : Searching machine) :
    (∃ phases found, fate target phases machine = some found) ↔ ¬ Recurs target machine := by
  constructor
  · rintro ⟨phases, found, hf⟩ hr
    rw [(fate_eq_none_iff phases).mpr (hr.ahead_isSome phases)] at hf
    cases hf
  · intro hr
    by_contra hnever
    refine hr (recurs_of_ahead h fun phases => ?_)
    rw [← fate_eq_none_iff]
    cases hf : fate target phases machine with
    | none => rfl
    | some found => exact absurd ⟨phases, found, hf⟩ hnever

end TernarySynth.Proofs.Lookahead
