import TernarySynth.Proofs.CodeValues
import TernarySynth.Proofs.LateDecision
import TernarySynth.Proofs.TritPlaces

/-!
# Words stay words

Every value that a machine computes is a word again: rotation and combination
stay below `wordSize`, encryption and decisions give printable values, and the
pointers wrap around. So a machine whose registers and decided cells hold words
keeps them so, and no pointer ever leaves the sixteen-bit range.
-/

namespace TernarySynth.Proofs.WordRange

open TritWord CellCode MemoryImage TernarySynth.Cycle
open CodeValues PhaseEffect LateDecision TritPlaces

/-- A printable value is a word. -/
theorem printable_lt {value : Word} (h : isPrintable value = true) : value < wordSize := by
  have hr := isPrintable_iff.mp h
  unfold wordSize Word at *
  omega

/-- The address after a word is a word. -/
theorem increment_lt {w : Word} (h : w < wordSize) : increment w < wordSize := by
  unfold increment wordSize Word at *
  split <;> omega

/-- Registers that hold words. -/
structure Registers.InRange (registers : Registers) : Prop where
  /-- The accumulator. -/
  a_lt : registers.a < wordSize
  /-- The code pointer. -/
  c_lt : registers.c < wordSize
  /-- The data pointer. -/
  d_lt : registers.d < wordSize

/-- A memory whose decided cells hold words. -/
def Holds (read : Word → Option Word) : Prop := ∀ a v, read a = some v → v < wordSize

/-- An effect after which registers and memory hold words, as long as the word
that it reads is one. It may wait, fail or stop, but does not leave the range. -/
def InRange : Effect → Prop
  | .wait address => address < wordSize
  | .refuse _ => True
  | .overflow => False
  | .halt => True
  | .move registers => Registers.InRange registers
  | .store _ value registers => value < wordSize ∧ Registers.InRange registers
  | .emit _ registers => Registers.InRange registers
  | .take registers => ∀ value < wordSize, Registers.InRange (registers value)

variable {registers : Registers} {read : Word → Option Word}

/-- Waiting for a cell at a word stays in the range. -/
theorem needing_inRange (hm : Holds read) {address : Word} (ha : address < wordSize)
    {next : Word → Effect} (hn : ∀ value < wordSize, InRange (next value)) :
    InRange (needing read address next) := by
  rcases needing_cases read address next with ⟨-, he⟩ | ⟨value, hv, he⟩
  · rw [he]
    exact ha
  · rw [he]
    exact hn value (hm address value hv)

/-- Instructions stay in the range. -/
theorem executeEffect_inRange (hr : Registers.InRange registers) (hm : Holds read)
    (instruction : Instruction) : InRange (executeEffect registers read instruction) := by
  obtain ⟨ha, hc, hd⟩ := hr
  cases instruction with
  | moveD => exact needing_inRange hm hd fun value hv => ⟨ha, hc, hv⟩
  | jump => exact needing_inRange hm hd fun value hv => ⟨ha, hv, hd⟩
  | rotateRight =>
    refine needing_inRange hm hd fun value hv => ?_
    have hw := rotateRight_lt hv
    exact ⟨hw, hw, hc, hd⟩
  | combine =>
    refine needing_inRange hm hd fun value _ => ?_
    have hw := combine_lt registers.a value
    exact ⟨hw, hw, hc, hd⟩
  | output => exact ⟨ha, hc, hd⟩
  | input => exact fun value hv => ⟨hv, hc, hd⟩
  | exit => trivial
  | noOp => exact ⟨ha, hc, hd⟩

/-- Phases stay in the range. -/
theorem effect_inRange (hr : Registers.InRange registers) (hm : Holds read) (lenient : Bool) :
    InRange (effect lenient registers read) := by
  unfold effect
  cases registers.phase with
  | fetch =>
    refine needing_inRange hm hr.c_lt fun value _ => ?_
    cases decode lenient registers.c value with
    | none => trivial
    | some instruction => exact executeEffect_inRange hr hm instruction
  | advance =>
    refine needing_inRange hm hr.c_lt fun value _ => ?_
    cases he : encrypt value with
    | none => trivial
    | some encrypted =>
      have hlimit : ¬ (registers.c = registerMax ∨ registers.d = registerMax) := by
        have hc := hr.c_lt
        have hd := hr.d_lt
        unfold registerMax wordSize Word at *
        omega
      dsimp only
      rw [if_neg hlimit]
      exact ⟨printable_lt (encrypt_printable he), hr.a_lt, increment_lt hr.c_lt,
        increment_lt hr.d_lt⟩

section Steps

variable {M P : Type} [Memory M]

/-- A machine whose registers and decided cells hold words. -/
structure Machine.InRange (machine : Machine M P) : Prop where
  /-- Its registers hold words. -/
  registers : Registers.InRange machine.registers
  /-- Its cells hold words. -/
  memory : Holds (Memory.read machine.memory)

variable [LawfulMemory M] [Channel P]

/-- An effect in the range keeps a machine in the range. The cell that it stores
into was decided before. -/
theorem perform_inRange {machine : Machine M P} (h : Machine.InRange machine)
    (hinput : ∀ value, (Channel.input machine.channel).1 = .ok value → value < wordSize)
    {effect : Effect} (he : InRange effect)
    (hs : ∀ a v r, effect = .store a v r → (Memory.read machine.memory a).isSome) :
    Machine.InRange (perform machine effect).2 := by
  cases effect with
  | wait address => exact h
  | refuse fault => exact h
  | overflow => exact h
  | halt => exact h
  | move registers => exact ⟨he, h.memory⟩
  | store address value registers =>
    refine ⟨he.2, fun b v hb => ?_⟩
    change Memory.read (Memory.write machine.memory address value) b = some v at hb
    rw [read_write_decided (hs address value registers rfl)] at hb
    split at hb
    · rw [← Option.some.inj hb]
      exact he.1
    · exact h.memory b v hb
  | emit byte registers =>
    simp only [perform, writeByte_eq]
    split
    · exact ⟨he, h.memory⟩
    · exact ⟨h.registers, h.memory⟩
  | take registers =>
    simp only [perform, readValue_eq]
    split
    next value channel hv => exact ⟨he value (hinput value (by rw [hv])), h.memory⟩
    next fault channel hv => exact ⟨h.registers, h.memory⟩

/-- A step keeps a machine in the range, unless it reads something else than a
word. It does not overflow, and asks for cells at words only. -/
theorem step_inRange {machine : Machine M P} (h : Machine.InRange machine)
    (hinput : ∀ value, (Channel.input machine.channel).1 = .ok value → value < wordSize)
    (lenient : Bool) :
    Machine.InRange (step lenient machine).2 ∧ (step lenient machine).1 ≠ .overflowed ∧
      ∀ a, (step lenient machine).1 = .needsDecision a → a < wordSize := by
  have he := effect_inRange h.registers h.memory lenient
  refine ⟨?_, fun ho => ?_, fun a ha => ?_⟩
  · rw [step_eq_perform]
    exact perform_inRange h hinput he fun a v r hs => effect_store_decided hs
  · rw [step_eq_perform] at ho
    rw [perform_overflowed ho] at he
    exact he
  · obtain ⟨-, -, hp⟩ := step_needsDecision ha
    rcases hp with rfl | rfl
    · exact h.registers.c_lt
    · exact h.registers.d_lt

end Steps

section Searching

variable {M : Type} [Memory M]

/-- A machine of a search: it is in the range and has no input. -/
structure Searching (machine : Machine M Transcript.Transcript) : Prop where
  /-- It holds words. -/
  inRange : Machine.InRange machine
  /-- There is nothing to read, and no end of it either. -/
  inputless : machine.channel.input = none

variable {machine : Machine M Transcript.Transcript}

/-- The first registers hold words. -/
theorem initial_inRange : Registers.InRange .initial := ⟨by decide, by decide, by decide⟩

/-- The machine before its first phase, with nothing decided. -/
theorem searching_blank {blank : M} (h : ∀ a, Memory.read blank a = none) :
    Searching ⟨.initial, blank, .withoutInput []⟩ := by
  refine ⟨⟨initial_inRange, fun a v hv => ?_⟩, rfl⟩
  rw [h a] at hv
  cases hv

/-- Nothing is read without an input. -/
theorem input_of_inputless {channel : Transcript.Transcript} (h : channel.input = none) :
    Channel.input channel = (.error .inputUnavailable, channel) := by
  obtain ⟨output, _ | words⟩ := channel
  · rfl
  · cases h

/-- No phase brings an input about. -/
theorem perform_inputless (h : machine.channel.input = none) (effect : Effect) :
    (perform machine effect).2.channel.input = none := by
  cases effect with
  | emit byte registers =>
    rw [perform, writeByte_eq]
    exact h
  | take registers =>
    rw [perform, readValue_eq, input_of_inputless h]
    exact h
  | _ => exact h

/-- A search stays in the range, whatever its machine runs. It never overflows,
and asks for cells at words only. -/
theorem Searching.step [LawfulMemory M] (h : Searching machine) (lenient : Bool) :
    Searching (step lenient machine).2 ∧ (step lenient machine).1 ≠ .overflowed ∧
      ∀ a, (step lenient machine).1 = .needsDecision a → a < wordSize := by
  have hinput : ∀ value, (Channel.input machine.channel).1 = .ok value → value < wordSize := by
    intro value hv
    rw [input_of_inputless h.inputless] at hv
    cases hv
  obtain ⟨hr, hrest⟩ := step_inRange h.inRange hinput lenient
  refine ⟨⟨hr, ?_⟩, hrest⟩
  rw [step_eq_perform]
  exact perform_inputless h.inputless _

/-- Deciding a cell stays in the range. -/
theorem Searching.store [PartialMemory M] (h : Searching machine) (address : Word)
    {value : Word} (hv : value < wordSize) : Searching (machine.store address value) := by
  refine ⟨⟨h.inRange.registers, fun b v hb => ?_⟩, h.inputless⟩
  rw [store_eq, PartialMemory.read_write] at hb
  split at hb
  · rw [← Option.some.inj hb]
    exact hv
  · exact h.inRange.memory b v hb

end Searching

end TernarySynth.Proofs.WordRange
