import TernarySynth.Cycle

/-!
# What a phase is about to do

A phase reads at most two cells, settles from their values and the registers
what happens, and only then touches memory or channel. `effect` is the first
half and sees the memory as a function from addresses to values; `perform` is
the second half. Everything that later modules say about `step` goes through
`step_eq_perform` and the few laws of `effect` below.
-/

namespace TernarySynth.Proofs.PhaseEffect

open TritWord CellCode MemoryImage TernarySynth.Cycle

/-- What a phase does once the cells that it needs have been read. -/
inductive Effect where
  /-- It waits for an undecided cell. -/
  | wait (address : Word)
  /-- It cannot run. -/
  | refuse (fault : Fault)
  /-- A pointer would leave the sixteen-bit range. -/
  | overflow
  /-- It stops the machine. -/
  | halt
  /-- It changes registers only. -/
  | move (registers : Registers)
  /-- It stores a value and changes registers. -/
  | store (address value : Word) (registers : Registers)
  /-- It writes a byte and then changes registers. -/
  | emit (byte : UInt8) (registers : Registers)
  /-- It reads a word and then changes registers. -/
  | take (registers : Word → Registers)

/-- Go on with the value of a cell, or wait for it. -/
def needing (read : Word → Option Word) (address : Word) (effect : Word → Effect) : Effect :=
  match read address with
  | none => .wait address
  | some value => effect value

/-- The effect of an instruction that has been fetched. -/
def executeEffect (registers : Registers) (read : Word → Option Word) : Instruction → Effect
  | .moveD => needing read registers.d fun value =>
    .move { registers with phase := .advance, d := value }
  | .jump => needing read registers.d fun value =>
    .move { registers with phase := .advance, c := value }
  | .rotateRight => needing read registers.d fun value =>
    .store registers.d (rotateRight value)
      { registers with phase := .advance, a := rotateRight value }
  | .combine => needing read registers.d fun value =>
    .store registers.d (combine registers.a value)
      { registers with phase := .advance, a := combine registers.a value }
  | .output => .emit (UInt8.ofNat (registers.a % 256)) { registers with phase := .advance }
  | .input => .take fun value => { registers with phase := .advance, a := value }
  | .exit => .halt
  | .noOp => .move { registers with phase := .advance }

/-- The effect of a fetch phase. -/
def fetchEffect (lenient : Bool) (registers : Registers) (read : Word → Option Word) : Effect :=
  needing read registers.c fun value =>
    match decode lenient registers.c value with
    | none => .refuse (.undecodable registers.c value)
    | some instruction => executeEffect registers read instruction

/-- The effect of an advance phase. -/
def advanceEffect (registers : Registers) (read : Word → Option Word) : Effect :=
  needing read registers.c fun value =>
    match encrypt value with
    | none => .refuse (.unencryptable registers.c value)
    | some encrypted =>
      if registers.c = registerMax ∨ registers.d = registerMax then .overflow
      else .store registers.c encrypted
        ⟨registers.a, increment registers.c, increment registers.d, .fetch⟩

/-- The effect of the phase that the registers select. -/
def effect (lenient : Bool) (registers : Registers) (read : Word → Option Word) : Effect :=
  match registers.phase with
  | .fetch => fetchEffect lenient registers read
  | .advance => advanceEffect registers read

section Performing

variable {M P : Type} [Memory M] [Channel P]

/-- Let an effect take place. -/
def perform (machine : Machine M P) : Effect → Outcome × Machine M P
  | .wait address => (.needsDecision address, machine)
  | .refuse fault => (.failed fault, machine)
  | .overflow => (.overflowed, machine)
  | .halt => (.completed .exited, machine)
  | .move registers => machine.proceed registers
  | .store address value registers => (machine.store address value).proceed registers
  | .emit byte registers => machine.writeByte byte registers
  | .take registers => machine.readValue registers

/-- Waiting in the model of a phase is waiting in its effect. -/
theorem withCell_eq_perform (machine : Machine M P) (address : Word)
    {go : Word → Outcome × Machine M P} {next : Word → Effect}
    (h : ∀ value, go value = perform machine (next value)) :
    machine.withCell address go =
      perform machine (needing (Memory.read machine.memory) address next) := by
  unfold Machine.withCell needing
  cases Memory.read machine.memory address with
  | none => rfl
  | some value => exact h value

/-- Executing an instruction lets its effect take place. -/
theorem execute_eq_perform (machine : Machine M P) (instruction : Instruction) :
    machine.execute instruction =
      perform machine (executeEffect machine.registers (Memory.read machine.memory)
        instruction) := by
  cases instruction with
  | moveD => exact withCell_eq_perform machine _ fun _ => rfl
  | jump => exact withCell_eq_perform machine _ fun _ => rfl
  | rotateRight => exact withCell_eq_perform machine _ fun _ => rfl
  | combine => exact withCell_eq_perform machine _ fun _ => rfl
  | output => rfl
  | input => rfl
  | exit => rfl
  | noOp => rfl

/-- A step lets the effect of its phase take place. -/
theorem step_eq_perform (lenient : Bool) (machine : Machine M P) :
    step lenient machine =
      perform machine (effect lenient machine.registers (Memory.read machine.memory)) := by
  unfold step effect
  cases machine.registers.phase with
  | fetch =>
    refine withCell_eq_perform machine _ fun value => ?_
    cases decode lenient machine.registers.c value with
    | none => rfl
    | some instruction => exact execute_eq_perform machine instruction
  | advance =>
    refine withCell_eq_perform machine _ fun value => ?_
    cases encrypt value with
    | none => rfl
    | some encrypted =>
      dsimp only
      split <;> rfl

end Performing

/-- A cell that is needed holds a value, or the phase waits for it. -/
theorem needing_cases (read : Word → Option Word) (address : Word) (next : Word → Effect) :
    (read address = none ∧ needing read address next = .wait address) ∨
      ∃ value, read address = some value ∧ needing read address next = next value := by
  unfold needing
  cases h : read address with
  | none => exact .inl ⟨rfl, rfl⟩
  | some value => exact .inr ⟨value, rfl, rfl⟩

/-- A fetch phase executes an instruction, or it does not run. -/
theorem fetchEffect_cases (lenient : Bool) (registers : Registers)
    (read : Word → Option Word) :
    (∃ fault, fetchEffect lenient registers read = .refuse fault) ∨
      (read registers.c = none ∧ fetchEffect lenient registers read = .wait registers.c) ∨
      ∃ value instruction, read registers.c = some value ∧
        decode lenient registers.c value = some instruction ∧
        fetchEffect lenient registers read = executeEffect registers read instruction := by
  unfold fetchEffect
  rcases needing_cases read registers.c _ with ⟨hnone, he⟩ | ⟨value, hv, he⟩
  · exact .inr (.inl ⟨hnone, he⟩)
  · rw [he]
    cases hd : decode lenient registers.c value with
    | none => exact .inl ⟨_, rfl⟩
    | some instruction => exact .inr (.inr ⟨value, instruction, hv, hd, rfl⟩)

/-- An advance phase encrypts the code cell and moves both pointers on, or it does
not run. -/
theorem advanceEffect_cases (registers : Registers) (read : Word → Option Word) :
    (∃ fault, advanceEffect registers read = .refuse fault) ∨
      (read registers.c = none ∧ advanceEffect registers read = .wait registers.c) ∨
      advanceEffect registers read = .overflow ∨
      ∃ value encrypted, read registers.c = some value ∧ encrypt value = some encrypted ∧
        advanceEffect registers read = .store registers.c encrypted
          ⟨registers.a, increment registers.c, increment registers.d, .fetch⟩ := by
  unfold advanceEffect
  rcases needing_cases read registers.c _ with ⟨hnone, he⟩ | ⟨value, hv, he⟩
  · exact .inr (.inl ⟨hnone, he⟩)
  · rw [he]
    cases hi : encrypt value with
    | none => exact .inl ⟨_, rfl⟩
    | some encrypted =>
      dsimp only
      by_cases hlimit : registers.c = registerMax ∨ registers.d = registerMax
      · rw [if_pos hlimit]
        exact .inr (.inr (.inl rfl))
      · rw [if_neg hlimit]
        exact .inr (.inr (.inr ⟨value, encrypted, hv, hi, rfl⟩))

section Waiting

variable {registers : Registers} {read : Word → Option Word} {address : Word}

/-- An instruction waits for the undecided data cell only. -/
theorem executeEffect_wait {instruction : Instruction}
    (h : executeEffect registers read instruction = .wait address) :
    read address = none ∧ address = registers.d := by
  have hd : ∀ next : Word → Effect, (∀ value, next value ≠ .wait address) →
      needing read registers.d next = .wait address →
      read address = none ∧ address = registers.d := by
    intro next hnext hn
    rcases needing_cases read registers.d next with ⟨hnone, he⟩ | ⟨value, -, he⟩
    · have ha : registers.d = address := Effect.wait.inj (he.symm.trans hn)
      exact ⟨ha ▸ hnone, ha.symm⟩
    · exact absurd (he.symm.trans hn) (hnext value)
  cases instruction with
  | moveD =>
    refine hd _ ?_ h
    intro value
    nofun
  | jump =>
    refine hd _ ?_ h
    intro value
    nofun
  | rotateRight =>
    refine hd _ ?_ h
    intro value
    nofun
  | combine =>
    refine hd _ ?_ h
    intro value
    nofun
  | output => cases h
  | input => cases h
  | exit => cases h
  | noOp => cases h

/-- A phase waits only for the cell under a pointer, and only while that cell
is undecided. -/
theorem effect_wait {lenient : Bool} (h : effect lenient registers read = .wait address) :
    read address = none ∧ (address = registers.c ∨ address = registers.d) := by
  unfold effect at h
  cases hp : registers.phase with
  | fetch =>
    simp only [hp] at h
    rcases fetchEffect_cases lenient registers read with
      ⟨_, he⟩ | ⟨hnone, he⟩ | ⟨_, instruction, -, -, he⟩
    · cases he.symm.trans h
    · cases he.symm.trans h
      exact ⟨hnone, .inl rfl⟩
    · obtain ⟨hnone, hd⟩ := executeEffect_wait (he.symm.trans h)
      exact ⟨hnone, .inr hd⟩
  | advance =>
    simp only [hp] at h
    rcases advanceEffect_cases registers read with
      ⟨_, he⟩ | ⟨hnone, he⟩ | he | ⟨_, _, -, -, he⟩
    · cases he.symm.trans h
    · cases he.symm.trans h
      exact ⟨hnone, .inl rfl⟩
    · cases he.symm.trans h
    · cases he.symm.trans h

end Waiting

section Storing

variable {registers after : Registers} {read : Word → Option Word} {address value : Word}

/-- An instruction stores into the data cell, and what it stores was computed
from what the cell held. -/
theorem executeEffect_store {instruction : Instruction}
    (h : executeEffect registers read instruction = .store address value after) :
    address = registers.d ∧ ∃ old, read registers.d = some old ∧
      (value = rotateRight old ∨ value = combine registers.a old) ∧
      after = { registers with phase := .advance, a := value } := by
  cases instruction with
  | moveD =>
    rcases needing_cases read registers.d _ with ⟨-, he⟩ | ⟨old, -, he⟩ <;>
      cases he.symm.trans h
  | jump =>
    rcases needing_cases read registers.d _ with ⟨-, he⟩ | ⟨old, -, he⟩ <;>
      cases he.symm.trans h
  | rotateRight =>
    rcases needing_cases read registers.d _ with ⟨-, he⟩ | ⟨old, hold, he⟩
    · cases he.symm.trans h
    · cases he.symm.trans h
      exact ⟨rfl, old, hold, .inl rfl, rfl⟩
  | combine =>
    rcases needing_cases read registers.d _ with ⟨-, he⟩ | ⟨old, hold, he⟩
    · cases he.symm.trans h
    · cases he.symm.trans h
      exact ⟨rfl, old, hold, .inr rfl, rfl⟩
  | output => cases h
  | input => cases h
  | exit => cases h
  | noOp => cases h

/-- What a phase that stores can be: a rotation or a combination of the data
cell in the fetch phase, or the encryption of the code cell in the advance
phase. The cell was decided before in either case. -/
theorem effect_store {lenient : Bool}
    (h : effect lenient registers read = .store address value after) :
    (registers.phase = .fetch ∧ address = registers.d ∧
      ∃ old, read registers.d = some old ∧
        (value = rotateRight old ∨ value = combine registers.a old) ∧
        after = { registers with phase := .advance, a := value }) ∨
    (registers.phase = .advance ∧ address = registers.c ∧
      ∃ old, read registers.c = some old ∧ encrypt old = some value ∧
        after = ⟨registers.a, increment registers.c, increment registers.d, .fetch⟩) := by
  unfold effect at h
  cases hp : registers.phase with
  | fetch =>
    simp only [hp] at h
    rcases fetchEffect_cases lenient registers read with
      ⟨_, he⟩ | ⟨-, he⟩ | ⟨_, instruction, -, -, he⟩
    · cases he.symm.trans h
    · cases he.symm.trans h
    · exact .inl ⟨rfl, executeEffect_store (he.symm.trans h)⟩
  | advance =>
    simp only [hp] at h
    rcases advanceEffect_cases registers read with
      ⟨_, he⟩ | ⟨-, he⟩ | he | ⟨old, encrypted, hold, hi, he⟩
    · cases he.symm.trans h
    · cases he.symm.trans h
    · cases he.symm.trans h
    · cases he.symm.trans h
      exact .inr ⟨rfl, rfl, old, hold, hi, rfl⟩

/-- A phase stores only into a cell that was decided before. -/
theorem effect_store_decided {lenient : Bool}
    (h : effect lenient registers read = .store address value after) :
    (read address).isSome := by
  rcases effect_store h with ⟨-, rfl, old, hold, -⟩ | ⟨-, rfl, old, hold, -⟩ <;>
    rw [hold] <;> rfl

end Storing

section Leading

variable {registers : Registers} {read : Word → Option Word} {property : Registers → Prop}

/-- An effect that runs on with registers of a certain kind only. -/
def LeadsTo (property : Registers → Prop) : Effect → Prop
  | .move registers => property registers
  | .store _ _ registers => property registers
  | .emit _ registers => property registers
  | .take registers => ∀ value, property (registers value)
  | _ => True

/-- Where a need leads to is where the value of the cell leads to. -/
theorem needing_leadsTo {address : Word} {next : Word → Effect}
    (h : ∀ value, read address = some value → LeadsTo property (next value)) :
    LeadsTo property (needing read address next) := by
  rcases needing_cases read address next with ⟨-, he⟩ | ⟨value, hv, he⟩
  · rw [he]
    trivial
  · rw [he]
    exact h value hv

/-- An instruction leads to the advance phase, and only a jump moves the code
pointer: to the value of the data cell. -/
theorem executeEffect_leadsTo (registers : Registers) (read : Word → Option Word)
    (instruction : Instruction) :
    LeadsTo (fun after => after.phase = .advance ∧
        (after.c = registers.c ∨ read registers.d = some after.c))
      (executeEffect registers read instruction) := by
  cases instruction with
  | moveD => exact needing_leadsTo fun value hv => ⟨rfl, .inl rfl⟩
  | jump => exact needing_leadsTo fun value hv => ⟨rfl, .inr hv⟩
  | rotateRight => exact needing_leadsTo fun value hv => ⟨rfl, .inl rfl⟩
  | combine => exact needing_leadsTo fun value hv => ⟨rfl, .inl rfl⟩
  | output => exact ⟨rfl, .inl rfl⟩
  | input => exact fun value => ⟨rfl, .inl rfl⟩
  | exit => trivial
  | noOp => exact ⟨rfl, .inl rfl⟩

/-- An advance phase leads to the next fetch phase. -/
theorem advanceEffect_leadsTo (registers : Registers) (read : Word → Option Word) :
    LeadsTo (fun after =>
        after = ⟨registers.a, increment registers.c, increment registers.d, .fetch⟩)
      (advanceEffect registers read) := by
  rcases advanceEffect_cases registers read with
    ⟨_, he⟩ | ⟨-, he⟩ | he | ⟨_, _, -, -, he⟩
  · rw [he]
    trivial
  · rw [he]
    trivial
  · rw [he]
    trivial
  · rw [he]
    rfl

/-- An advance phase does not stop the machine. -/
theorem advanceEffect_ne_halt (registers : Registers) (read : Word → Option Word) :
    advanceEffect registers read ≠ .halt := by
  intro h
  rcases advanceEffect_cases registers read with
    ⟨_, he⟩ | ⟨-, he⟩ | he | ⟨_, _, -, -, he⟩ <;>
    cases he.symm.trans h

/-- A machine stops where it fetches an exit. -/
theorem effect_halt {lenient : Bool} (h : effect lenient registers read = .halt) :
    ∃ value, read registers.c = some value ∧ decode lenient registers.c value = some .exit := by
  unfold effect at h
  cases hp : registers.phase with
  | advance =>
    simp only [hp] at h
    exact absurd h (advanceEffect_ne_halt registers read)
  | fetch =>
    simp only [hp] at h
    rcases fetchEffect_cases lenient registers read with
      ⟨_, he⟩ | ⟨-, he⟩ | ⟨value, instruction, hv, hd, he⟩
    · cases he.symm.trans h
    · cases he.symm.trans h
    · have hexecute := he.symm.trans h
      have hexit : instruction = .exit := by
        cases instruction with
        | exit => rfl
        | output => cases hexecute
        | input => cases hexecute
        | noOp => cases hexecute
        | _ =>
          rcases needing_cases read registers.d _ with ⟨-, hn⟩ | ⟨_, -, hn⟩ <;>
            cases hn.symm.trans hexecute
      rw [hexit] at hd
      exact ⟨value, hv, hd⟩

/-- Where the code cell is undecided every phase waits for it. -/
theorem effect_of_undecided (lenient : Bool) (h : read registers.c = none) :
    effect lenient registers read = .wait registers.c := by
  unfold effect
  cases registers.phase <;> simp only [fetchEffect, advanceEffect, needing, h]

end Leading

section Extending

variable {read full : Word → Option Word}

/-- Deciding more cells changes nothing for a need that was met. -/
theorem needing_extends (h : ∀ a v, read a = some v → full a = some v) (address : Word)
    {next next' : Word → Effect}
    (hnext : ∀ value, (∃ a, next value = .wait a) ∨ next' value = next value) :
    (∃ a, needing read address next = .wait a) ∨
      needing full address next' = needing read address next := by
  rcases needing_cases read address next with ⟨-, he⟩ | ⟨value, hv, he⟩
  · exact .inl ⟨address, he⟩
  · rw [he]
    refine (hnext value).imp id fun hn => ?_
    unfold needing
    rw [h address value hv]
    exact hn

/-- Deciding more cells changes nothing for an instruction that does not wait. -/
theorem executeEffect_extends (h : ∀ a v, read a = some v → full a = some v)
    (registers : Registers) (instruction : Instruction) :
    (∃ a, executeEffect registers read instruction = .wait a) ∨
      executeEffect registers full instruction = executeEffect registers read instruction := by
  cases instruction with
  | moveD => exact needing_extends h _ fun _ => .inr rfl
  | jump => exact needing_extends h _ fun _ => .inr rfl
  | rotateRight => exact needing_extends h _ fun _ => .inr rfl
  | combine => exact needing_extends h _ fun _ => .inr rfl
  | output => exact .inr rfl
  | input => exact .inr rfl
  | exit => exact .inr rfl
  | noOp => exact .inr rfl

/-- Deciding more cells changes nothing for a phase that does not wait. -/
theorem effect_extends (h : ∀ a v, read a = some v → full a = some v) (lenient : Bool)
    (registers : Registers) :
    (∃ a, effect lenient registers read = .wait a) ∨
      effect lenient registers full = effect lenient registers read := by
  unfold effect
  cases registers.phase with
  | fetch =>
    refine needing_extends h _ fun value => ?_
    cases decode lenient registers.c value with
    | none => exact .inr rfl
    | some instruction => exact executeEffect_extends h registers instruction
  | advance => exact needing_extends h _ fun _ => .inr rfl

end Extending

variable {M P : Type}

/-- The machine after a store. -/
theorem store_eq [Memory M] (machine : Machine M P) (address value : Word) :
    machine.store address value =
      ⟨machine.registers, Memory.write machine.memory address value, machine.channel⟩ := by
  cases machine; rfl

/-- The machine after it proceeds. -/
theorem proceed_eq (machine : Machine M P) (registers : Registers) :
    machine.proceed registers =
      (.completed .running, ⟨registers, machine.memory, machine.channel⟩) := by
  cases machine; rfl

/-- Only output and input touch the channel, and what they do to the registers
does not depend on the memory. -/
theorem writeByte_eq [Channel P] (machine : Machine M P) (byte : UInt8) (after : Registers) :
    machine.writeByte byte after =
      match Channel.output machine.channel byte with
      | (.ok (), channel) => (.completed .running, ⟨after, machine.memory, channel⟩)
      | (.error fault, channel) =>
        (.failed fault, ⟨machine.registers, machine.memory, channel⟩) := by
  cases machine; rfl

/-- The word that is read settles the registers. -/
theorem readValue_eq [Channel P] (machine : Machine M P) (after : Word → Registers) :
    machine.readValue after =
      match Channel.input machine.channel with
      | (.ok value, channel) => (.completed .running, ⟨after value, machine.memory, channel⟩)
      | (.error fault, channel) =>
        (.failed fault, ⟨machine.registers, machine.memory, channel⟩) := by
  cases machine; rfl

/-- A write either completes the phase or fails it. -/
theorem writeByte_outcome [Channel P] (machine : Machine M P) (byte : UInt8) (after : Registers) :
    (machine.writeByte byte after).1 = .completed .running ∨
      ∃ fault, (machine.writeByte byte after).1 = .failed fault := by
  rw [writeByte_eq]
  rcases Channel.output machine.channel byte with ⟨fault | _, channel⟩
  · exact .inr ⟨fault, rfl⟩
  · exact .inl rfl

/-- A read either completes the phase or fails it. -/
theorem readValue_outcome [Channel P] (machine : Machine M P) (after : Word → Registers) :
    (machine.readValue after).1 = .completed .running ∨
      ∃ fault, (machine.readValue after).1 = .failed fault := by
  rw [readValue_eq]
  rcases Channel.input machine.channel with ⟨fault | value, channel⟩
  · exact .inr ⟨fault, rfl⟩
  · exact .inl rfl

section Outcomes

variable [Memory M] [Channel P] {machine : Machine M P} {effect : Effect}

/-- What an effect comes to: it waits, overflows or stops and leaves the machine
as it was, or it runs on or fails. -/
theorem perform_cases (machine : Machine M P) (effect : Effect) :
    (∃ address, effect = .wait address ∧
        perform machine effect = (.needsDecision address, machine)) ∨
      (effect = .overflow ∧ perform machine effect = (.overflowed, machine)) ∨
      (effect = .halt ∧ perform machine effect = (.completed .exited, machine)) ∨
      (perform machine effect).1 = .completed .running ∨
      ∃ fault, (perform machine effect).1 = .failed fault := by
  cases effect with
  | wait address => exact .inl ⟨address, rfl, rfl⟩
  | refuse fault => exact .inr (.inr (.inr (.inr ⟨fault, rfl⟩)))
  | overflow => exact .inr (.inl ⟨rfl, rfl⟩)
  | halt => exact .inr (.inr (.inl ⟨rfl, rfl⟩))
  | move after => exact .inr (.inr (.inr (.inl rfl)))
  | store cell value after => exact .inr (.inr (.inr (.inl rfl)))
  | emit byte after =>
    have hw := writeByte_outcome machine byte after
    exact .inr (.inr (.inr hw))
  | take after =>
    have hr := readValue_outcome machine after
    exact .inr (.inr (.inr hr))

/-- Only waiting asks for a cell. -/
theorem perform_needsDecision {address : Word}
    (h : (perform machine effect).1 = .needsDecision address) : effect = .wait address := by
  rcases perform_cases machine effect with ⟨needed, he, hp⟩ | ⟨-, hp⟩ | ⟨-, hp⟩ | hp | ⟨fault, hp⟩
  · rw [hp] at h
    cases h
    exact he
  all_goals
    rw [hp] at h
    cases h

/-- Only an overflow overflows. -/
theorem perform_overflowed (h : (perform machine effect).1 = .overflowed) :
    effect = .overflow := by
  rcases perform_cases machine effect with ⟨needed, -, hp⟩ | ⟨he, -⟩ | ⟨-, hp⟩ | hp | ⟨fault, hp⟩
  · rw [hp] at h
    cases h
  · exact he
  all_goals
    rw [hp] at h
    cases h

/-- Only a stop exits, and it changes nothing. -/
theorem perform_exited (h : (perform machine effect).1 = .completed .exited) :
    effect = .halt ∧ (perform machine effect).2 = machine := by
  rcases perform_cases machine effect with ⟨needed, -, hp⟩ | ⟨-, hp⟩ | ⟨he, hp⟩ | hp | ⟨fault, hp⟩
  · rw [hp] at h
    cases h
  · rw [hp] at h
    cases h
  · exact ⟨he, congrArg Prod.snd hp⟩
  all_goals
    rw [hp] at h
    cases h

/-- A machine runs on with the registers that the effect leads to. -/
theorem perform_leadsTo {property : Registers → Prop} (he : LeadsTo property effect)
    (h : (perform machine effect).1 = .completed .running) :
    property (perform machine effect).2.registers := by
  cases effect with
  | wait needed => cases h
  | refuse fault => cases h
  | overflow => cases h
  | halt => cases h
  | move after => exact he
  | store cell value after => exact he
  | emit byte after =>
    simp only [perform, writeByte_eq] at h ⊢
    split
    next => exact he
    next hw =>
      rw [hw] at h
      cases h
  | take after =>
    simp only [perform, readValue_eq] at h ⊢
    split
    next value channel hr => exact he value
    next hr =>
      rw [hr] at h
      cases h

/-- A step that asks for a cell has done nothing: it waits for the cell under a
pointer, which is undecided. -/
theorem step_needsDecision {lenient : Bool} {address : Word}
    (h : (step lenient machine).1 = .needsDecision address) :
    step lenient machine = (.needsDecision address, machine) ∧
      Memory.read machine.memory address = none ∧
      (address = machine.registers.c ∨ address = machine.registers.d) := by
  rw [step_eq_perform] at h ⊢
  have he := perform_needsDecision h
  rw [he]
  exact ⟨rfl, effect_wait he⟩

end Outcomes

end TernarySynth.Proofs.PhaseEffect
