import TernarySynth.Proofs.CellReads
import TernarySynth.Transcript

/-!
# Phases that leave no trace

A phase settles what it does before it touches anything. So one that waits for a cell, or
that stops the machine, has done nothing at all, and one that fails has changed neither
registers nor memory and has got nothing from its channel. A phase that completes and runs
on turns to the other phase, and changes one cell at most, one that it has read.
-/

namespace TernarySynth.Proofs.TracelessPhase

open TritWord CellCode MemoryImage TernarySynth.Cycle SparseMemory Transcript
open PhaseEffect LateDecision CellReads

section Logging

/-- A call made to a channel, with its answer. -/
inductive Call where
  /-- A byte was to be written. -/
  | output (byte : UInt8) (answer : Except Fault Unit)
  /-- A word was to be read. -/
  | input (answer : Except Fault Word)

/-- The channel did what it was asked for. -/
def Call.Succeeded : Call → Prop
  | .output _ answer => answer.toBool = true
  | .input answer => answer.toBool = true

/-- A channel with a log of the calls made to it, the latest first. -/
structure Logged (P : Type) where
  /-- The channel itself. -/
  channel : P
  /-- The calls with their answers. -/
  calls : List Call

variable {M P : Type} [Memory M] [Channel P]

instance : Channel (Logged P) where
  output logged byte :=
    let answer := Channel.output logged.channel byte
    (answer.1, ⟨answer.2, .output byte answer.1 :: logged.calls⟩)
  input logged :=
    let answer := Channel.input logged.channel
    (answer.1, ⟨answer.2, .input answer.1 :: logged.calls⟩)

/-- The calls that an effect makes to a channel. -/
def callsOf (channel : P) : Effect → List Call
  | .emit byte _ => [.output byte (Channel.output channel byte).1]
  | .take _ => [.input (Channel.input channel).1]
  | _ => []

/-- A log changes nothing for the machine, and has the calls of its effect. -/
theorem perform_logged (machine : Machine M P) (calls : List Call) (effect : Effect) :
    perform (Machine.mk machine.registers machine.memory (Logged.mk machine.channel calls)) effect =
      ((perform machine effect).1,
        ⟨(perform machine effect).2.registers, (perform machine effect).2.memory,
          ⟨(perform machine effect).2.channel, callsOf machine.channel effect ++ calls⟩⟩) := by
  cases effect with
  | emit byte after =>
    simp only [perform, writeByte_eq, Channel.output, callsOf]
    rcases Channel.output machine.channel byte with ⟨fault | _, channel⟩ <;> rfl
  | take after =>
    simp only [perform, readValue_eq, Channel.input, callsOf]
    rcases Channel.input machine.channel with ⟨fault | value, channel⟩ <;> rfl
  | _ => rfl

end Logging

section Effects

variable {registers after : Registers} {read : Word → Option Word} {lenient : Bool}

/-- The phase that follows a phase. -/
def other : Phase → Phase
  | .fetch => .advance
  | .advance => .fetch

/-- The cell that a phase may change: the one at the data pointer in the fetch phase, and
the one at the code pointer in the advance phase. -/
def operand (registers : Registers) : Word :=
  match registers.phase with
  | .fetch => registers.d
  | .advance => registers.c

/-- What the registers have that an effect leads to, they have with all that follows
from it. -/
theorem leadsTo_mono {p q : Registers → Prop} (h : ∀ after, p after → q after) {effect : Effect}
    (he : LeadsTo p effect) : LeadsTo q effect := by
  cases effect with
  | move after => exact h after he
  | store cell value after => exact h after he
  | emit byte after => exact h after he
  | take after => exact fun value => h (after value) (he value)
  | _ => trivial

/-- Every phase leads to the other one. -/
theorem effect_leadsTo (lenient : Bool) (registers : Registers) (read : Word → Option Word) :
    LeadsTo (fun after => after.phase = other registers.phase) (effect lenient registers read) := by
  unfold effect
  cases registers.phase with
  | fetch =>
    refine needing_leadsTo fun value _ => ?_
    cases decode lenient registers.c value with
    | none => trivial
    | some instruction =>
      exact leadsTo_mono (fun _ h => h.1) (executeEffect_leadsTo registers read instruction)
  | advance =>
    refine leadsTo_mono (fun after h => ?_) (advanceEffect_leadsTo registers read)
    rw [h]
    rfl

/-- An instruction does not overflow. -/
theorem executeEffect_ne_overflow (instruction : Instruction) :
    executeEffect registers read instruction ≠ .overflow := by
  intro h
  cases instruction with
  | output => cases h
  | input => cases h
  | exit => cases h
  | noOp => cases h
  | _ =>
    rcases needing_cases read registers.d _ with ⟨-, hn⟩ | ⟨_, -, hn⟩ <;>
      cases hn.symm.trans h

/-- Only the advance phase can overflow, and only at the largest number. -/
theorem effect_overflow (h : effect lenient registers read = .overflow) :
    registers.phase = .advance ∧ (registers.c = registerMax ∨ registers.d = registerMax) := by
  unfold effect at h
  cases hp : registers.phase with
  | fetch =>
    simp only [hp] at h
    rcases fetchEffect_cases lenient registers read with
      ⟨_, he⟩ | ⟨-, he⟩ | ⟨_, instruction, -, -, he⟩
    · cases he.symm.trans h
    · cases he.symm.trans h
    · exact absurd (he.symm.trans h) (executeEffect_ne_overflow instruction)
  | advance =>
    simp only [hp, advanceEffect] at h
    refine ⟨rfl, ?_⟩
    rcases needing_cases read registers.c _ with ⟨-, he⟩ | ⟨value, -, he⟩
    · cases he.symm.trans h
    · have h := he.symm.trans h
      cases hi : encrypt value with
      | none =>
        rw [hi] at h
        cases h
      | some encrypted =>
        rw [hi] at h
        dsimp only at h
        split at h
        next hlimit => exact hlimit
        next => cases h

/-- A phase stores into its operand. -/
theorem effect_store_operand {a value : Word}
    (h : effect lenient registers read = .store a value after) : a = operand registers := by
  unfold operand
  rcases effect_store h with ⟨hp, ha, -⟩ | ⟨hp, ha, -⟩ <;> rw [hp, ha]

/-- With the cell hidden that it stores into, a phase waits for this cell. -/
theorem effect_veil_of_store {a value : Word}
    (h : effect lenient registers read = .store a value after) :
    effect lenient registers (veil read a) = .wait a := by
  have hmore : ∀ b v, veil read a b = some v → read b = some v := by
    intro b v hv
    unfold veil at hv
    split at hv
    · cases hv
    · exact hv
  rcases effect_extends hmore lenient registers with ⟨b, hw⟩ | he
  · -- A wait for any other cell would be one without the veil.
    by_cases hb : b = a
    · rw [← hb] at hw ⊢
      exact hw
    · have hnone := (effect_wait hw).1
      rw [veil, if_neg hb] at hnone
      cases (effect_wait_extends hmore hnone lenient registers hw).symm.trans h
  · have hdecided := effect_store_decided (he.symm.trans h)
    rw [veil, if_pos rfl] at hdecided
    cases hdecided

end Effects

section Traces

variable {M P : Type} [Memory M] [Channel P] {lenient : Bool} {machine after : Machine M P}

/-- A phase has run on: it turned to the other phase, and changed one cell at most, which
it had read. -/
structure RanOn (lenient : Bool) (machine after : Machine M P) : Prop where
  /-- The other phase is the next one. -/
  turned : after.registers.phase = other machine.registers.phase
  /-- A cell that has changed is the operand, and the phase has read it. -/
  changed : ∀ a, Memory.read after.memory a ≠ Memory.read machine.memory a →
    a = operand machine.registers ∧ ReadsCell lenient machine a
  /-- Nothing was written, or one value to the operand. -/
  wrote : after.memory = machine.memory ∨
    ∃ value, after.memory = Memory.write machine.memory (operand machine.registers) value

/-- What a phase with a certain outcome leaves: the machine that it was run on, the
machine after it, and the calls that it made. -/
def Leaves (lenient : Bool) (machine after : Machine M P) (calls : List Call) : Outcome → Prop
  | .needsDecision a =>
    (a = machine.registers.c ∨ a = machine.registers.d) ∧ Memory.read machine.memory a = none ∧
      after = machine ∧ calls = []
  | .failed _ =>
    after.registers = machine.registers ∧ after.memory = machine.memory ∧
      ∀ call ∈ calls, ¬ call.Succeeded
  | .completed .exited => after = machine ∧ calls = []
  | .completed .running => RanOn lenient machine after
  | .overflowed => machine.registers.phase = .advance ∧
    (machine.registers.c = registerMax ∨ machine.registers.d = registerMax)

/-- A phase that leaves the memory alone runs on. -/
theorem ranOn_of_same (turned : after.registers.phase = other machine.registers.phase)
    (same : after.memory = machine.memory) : RanOn lenient machine after where
  turned := turned
  changed a hne := by
    rw [same] at hne
    exact absurd rfl hne
  wrote := .inl same

/-- A phase that stores runs on. -/
theorem ranOn_of_store [LawfulMemory M] {a value : Word} {registers : Registers}
    (he : effect lenient machine.registers (Memory.read machine.memory) =
      .store a value registers)
    (turned : registers.phase = other machine.registers.phase) :
    RanOn lenient machine
      ⟨registers, Memory.write machine.memory a value, machine.channel⟩ where
  turned := turned
  changed b hne := by
    by_cases hb : a = b
    · rw [← hb]
      exact ⟨effect_store_operand he, readsCell_iff.mpr (effect_veil_of_store he)⟩
    · exact absurd (LawfulMemory.read_write_other machine.memory a b value hb) hne
  wrote := .inr ⟨value, by rw [effect_store_operand he]⟩

/-- What a phase leaves is what its effect leaves. -/
theorem perform_leaves [LawfulMemory M] {effect : Effect}
    (he : PhaseEffect.effect lenient machine.registers (Memory.read machine.memory) = effect) :
    Leaves lenient machine (perform machine effect).2 (callsOf machine.channel effect)
      (perform machine effect).1 := by
  have hleads := effect_leadsTo lenient machine.registers (Memory.read machine.memory)
  rw [he] at hleads
  cases effect with
  | wait a =>
    obtain ⟨hnone, hpointer⟩ := effect_wait he
    exact ⟨hpointer, hnone, rfl, rfl⟩
  | refuse fault => exact ⟨rfl, rfl, nofun⟩
  | overflow => exact effect_overflow he
  | halt => exact ⟨rfl, rfl⟩
  | move after =>
    rw [perform, proceed_eq]
    exact ranOn_of_same hleads rfl
  | store a value after =>
    rw [perform, proceed_eq, store_eq]
    exact ranOn_of_store he hleads
  | emit byte after =>
    simp only [perform, writeByte_eq, callsOf]
    rcases hanswer : Channel.output machine.channel byte with ⟨fault | _, channel⟩
    · refine ⟨rfl, rfl, fun call hcall => ?_⟩
      rw [List.mem_singleton.mp hcall]
      exact Bool.false_ne_true
    · exact ranOn_of_same hleads rfl
  | take after =>
    simp only [perform, readValue_eq, callsOf]
    rcases hanswer : Channel.input machine.channel with ⟨fault | value, channel⟩
    · refine ⟨rfl, rfl, fun call hcall => ?_⟩
      rw [List.mem_singleton.mp hcall]
      exact Bool.false_ne_true
    · exact ranOn_of_same (hleads value) rfl

/-- A phase that does not run to its end leaves no trace. One that waits does so for an
undecided cell under a pointer and has done nothing at all, and neither has one that stops
the machine. One that fails has changed neither registers nor memory, and no call to the
channel has succeeded. One that runs on turns to the other phase and changes one cell at
most, at the data pointer when it fetches and at the code pointer when it advances, and
that cell it has read. Nothing else can happen, unless a pointer is the largest number. -/
theorem phase_leaves_no_trace [LawfulMemory M] (lenient : Bool) (machine : Machine M P) :
    ∃ calls : List Call,
      step lenient (Machine.mk machine.registers machine.memory (Logged.mk machine.channel [])) =
        ((step lenient machine).1,
          ⟨(step lenient machine).2.registers, (step lenient machine).2.memory,
            ⟨(step lenient machine).2.channel, calls⟩⟩) ∧
      Leaves lenient machine (step lenient machine).2 calls (step lenient machine).1 := by
  generalize he : effect lenient machine.registers (Memory.read machine.memory) = effect
  refine ⟨callsOf machine.channel effect, ?_, ?_⟩
  · rw [step_eq_perform, step_eq_perform, he]
    have hlogged := perform_logged machine [] effect
    rw [List.append_nil] at hlogged
    rw [← hlogged, ← he]
  · rw [step_eq_perform, he]
    exact perform_leaves he

/-- A machine about to rotate the very cell that it executes, without input. -/
def rotating : Machine SparseMemory Transcript :=
  ⟨.initial, ⟨[(0, 39)]⟩, .withoutInput []⟩

/-- It changes that cell, which it had read as code and as data, and runs on; the advance
phase then finds nothing printable there, and changes nothing. -/
theorem phase_leaves_no_trace_of_rotation :
    (Memory.read (step false rotating).2.memory 0 = some 13 ∧
        RanOn false rotating (step false rotating).2) ∧
      (step false (step false rotating).2).1 = .failed (.unencryptable 0 13) ∧
      (step false (step false rotating).2).2.registers = (step false rotating).2.registers ∧
      (step false (step false rotating).2).2.memory = (step false rotating).2.memory := by
  have hruns : (step false rotating).1 = .completed .running := by decide
  have hfails : (step false (step false rotating).2).1 = .failed (.unencryptable 0 13) := by decide
  obtain ⟨_, -, hran⟩ := phase_leaves_no_trace false rotating
  obtain ⟨_, -, hfailed⟩ := phase_leaves_no_trace false (step false rotating).2
  rw [hruns] at hran
  rw [hfails] at hfailed
  exact ⟨⟨by decide, hran⟩, hfails, hfailed.1, hfailed.2.1⟩

end Traces

end TernarySynth.Proofs.TracelessPhase
