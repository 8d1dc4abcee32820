import TernarySynth.Proofs.PhaseEffect
import TernarySynth.SparseMemory
import TernarySynth.Transcript

/-!
# Deciding cells late

A run over a memory that is only partly decided is the beginning of the run
over every memory that decides more. Execution never decides a cell: it only
writes cells that it has just read. Hence the two memories go on to agree where
they agreed, and differ where they differed; and a run that had to wait for a
cell goes on, once the cell is decided, as if it had been decided all along.
-/

namespace TernarySynth.Proofs.LateDecision

open TritWord MemoryImage SparseMemory TernarySynth.Cycle PhaseEffect

/-- The law of a memory in which every cell can be decided by a write. -/
class PartialMemory (M : Type) [Memory M] : Prop where
  /-- A write decides its own cell and leaves the others alone. -/
  read_write (m : M) (a b v : Word) :
    Memory.read (Memory.write m a v) b = if a = b then some v else Memory.read m b

instance {M : Type} [Memory M] [PartialMemory M] : LawfulMemory M where
  read_write_same m a v _ := by rw [PartialMemory.read_write, if_pos rfl]
  read_write_other m a b v h := by rw [PartialMemory.read_write, if_neg h]

instance : PartialMemory SparseMemory where
  read_write := SparseMemory.read_write

/-- What a write to a decided cell does to later reads, in one equation. -/
theorem read_write_decided {M : Type} [Memory M] [LawfulMemory M] {m : M} {a : Word}
    (h : (Memory.read m a).isSome) (v b : Word) :
    Memory.read (Memory.write m a v) b = if a = b then some v else Memory.read m b := by
  by_cases hb : a = b
  · subst hb
    rw [if_pos rfl, LawfulMemory.read_write_same m a v h]
  · rw [if_neg hb, LawfulMemory.read_write_other m a b v hb]

/-- The phase ran to completion, whether the machine goes on or has stopped. -/
def Completes : Outcome → Prop
  | .completed _ => True
  | _ => False

instance : DecidablePred Completes
  | .completed _ => isTrue trivial
  | .needsDecision _ => isFalse id
  | .failed _ => isFalse id
  | .overflowed => isFalse id

/-- A call made to a channel. -/
inductive ChannelCall where
  /-- A byte was written. -/
  | output (byte : UInt8)
  /-- A word was read. -/
  | input
  deriving DecidableEq

/-- A channel with a record of the calls made to it. -/
structure Recorded (P : Type) where
  /-- The channel itself. -/
  channel : P
  /-- Calls so far, the latest first. -/
  record : List ChannelCall
  deriving DecidableEq

instance {P : Type} [Channel P] : Channel (Recorded P) where
  output recorded byte :=
    let answer := Channel.output recorded.channel byte
    (answer.1, ⟨answer.2, .output byte :: recorded.record⟩)
  input recorded :=
    let answer := Channel.input recorded.channel
    (answer.1, ⟨answer.2, .input :: recorded.record⟩)

section Calls

variable {M P : Type} [Memory M] [Channel P]

/-- A number of successive calls of `step`: their outcomes in order, and the
machine after the last of them. -/
def calls (lenient : Bool) : Nat → Machine M P → List Outcome × Machine M P
  | 0, machine => ([], machine)
  | n + 1, machine =>
    let first := step lenient machine
    let others := calls lenient n first.2
    (first.1 :: others.1, others.2)

/-- Calls made in two portions. -/
theorem calls_add (lenient : Bool) (n j : Nat) (machine : Machine M P) :
    calls lenient (n + j) machine =
      ((calls lenient n machine).1 ++ (calls lenient j (calls lenient n machine).2).1,
        (calls lenient j (calls lenient n machine).2).2) := by
  induction n generalizing machine with
  | zero => simp only [Nat.zero_add, calls, List.nil_append]
  | succ n ih =>
    rw [Nat.succ_add_eq_add_succ, Nat.add_succ]
    simp only [calls]
    rw [ih]
    simp only [List.cons_append]

end Calls

section Lockstep

variable {M F P : Type} [Memory M] [Memory F]

/-- Two machines that run in step. They have the same registers and the same
channel; `decided` are the cells that are decided in the first, where the other
agrees with it, and `rest` is what the other has in all further cells. -/
structure InStep (decided : Word → Prop) (rest : Word → Option Word)
    (late : Machine M P) (early : Machine F P) : Prop where
  /-- The registers are the same. -/
  registers_eq : early.registers = late.registers
  /-- The channels are the same, and with them every call made so far. -/
  channel_eq : early.channel = late.channel
  /-- The decided cells of the first machine are known. -/
  decided_iff : ∀ a, (Memory.read late.memory a).isSome ↔ decided a
  /-- The memories agree on them. -/
  agree : ∀ a, decided a → Memory.read early.memory a = Memory.read late.memory a
  /-- The other cells of the second machine are known as well. -/
  rest_eq : ∀ a, ¬ decided a → Memory.read early.memory a = rest a

variable {decided : Word → Prop} {rest : Word → Option Word}
variable {late : Machine M P} {early : Machine F P}

/-- What is read in the first machine is read in the second. -/
theorem InStep.extends (h : InStep decided rest late early) (a v : Word)
    (hv : Memory.read late.memory a = some v) : Memory.read early.memory a = some v := by
  have hd : decided a := (h.decided_iff a).mp (by rw [hv]; rfl)
  rw [h.agree a hd, hv]

/-- Machines in step whose memories differ nowhere else read the same. -/
theorem InStep.read_eq (h : InStep decided (fun _ => none) late early) (a : Word) :
    Memory.read early.memory a = Memory.read late.memory a := by
  by_cases hd : decided a
  · exact h.agree a hd
  · have hn : Memory.read late.memory a = none := by
      rw [← Option.not_isSome_iff_eq_none, h.decided_iff]
      exact hd
    rw [h.rest_eq a hd, hn]

/-- A cell that is undecided in the first machine is none of the decided ones. -/
theorem InStep.undecided (h : InStep decided rest late early) {a : Word}
    (hn : Memory.read late.memory a = none) : ¬ decided a := by
  intro hd
  have hs := (h.decided_iff a).mpr hd
  rw [hn] at hs
  cases hs

/-- Only what the decided cells are, and what the other machine has in the rest of
them, counts. -/
theorem InStep.congr {decided' : Word → Prop} {rest' : Word → Option Word}
    (h : InStep decided rest late early) (hd : ∀ a, decided a ↔ decided' a)
    (hr : ∀ a, ¬ decided' a → rest a = rest' a) : InStep decided' rest' late early := by
  refine ⟨h.registers_eq, h.channel_eq, fun a => ?_, fun a ha => ?_, fun a ha => ?_⟩
  · rw [h.decided_iff, hd]
  · exact h.agree a ((hd a).mpr ha)
  · rw [← hr a ha]
    exact h.rest_eq a fun hda => ha ((hd a).mp hda)

/-- Deciding a cell in the first machine as the second has it keeps them in
step. -/
theorem InStep.decide [PartialMemory M] (h : InStep decided rest late early) {a v : Word}
    (ha : ¬ decided a) (hv : rest a = some v) :
    InStep (fun b => decided b ∨ a = b) rest (late.store a v) early := by
  rw [store_eq]
  refine ⟨h.registers_eq, h.channel_eq, fun b => ?_, fun b hb => ?_, fun b hb => ?_⟩
  · dsimp only
    rw [PartialMemory.read_write]
    by_cases hab : a = b
    · simp only [hab, if_pos, Option.isSome_some, or_true]
    · rw [if_neg hab, h.decided_iff b]
      simp only [hab, or_false]
  · dsimp only
    rw [PartialMemory.read_write]
    by_cases hab : a = b
    · subst hab
      rw [h.rest_eq a ha, hv, if_pos rfl]
    · rw [if_neg hab, h.agree b (hb.resolve_right hab)]
  · rw [not_or] at hb
    exact h.rest_eq b hb.1

variable [Channel P] [LawfulMemory M] [LawfulMemory F]

/-- An effect that stores into decided cells only keeps two machines in step. -/
theorem perform_inStep (h : InStep decided rest late early) (effect : Effect)
    (hs : ∀ a v r, effect = .store a v r → decided a) :
    (perform early effect).1 = (perform late effect).1 ∧
      InStep decided rest (perform late effect).2 (perform early effect).2 := by
  cases effect with
  | wait address => exact ⟨rfl, h⟩
  | refuse fault => exact ⟨rfl, h⟩
  | overflow => exact ⟨rfl, h⟩
  | halt => exact ⟨rfl, h⟩
  | move registers =>
    simp only [perform, proceed_eq]
    exact ⟨trivial, rfl, h.channel_eq, h.decided_iff, h.agree, h.rest_eq⟩
  | store address value registers =>
    have hd : decided address := hs address value registers rfl
    have hl : (Memory.read late.memory address).isSome := (h.decided_iff address).mpr hd
    have he : (Memory.read early.memory address).isSome := by rw [h.agree address hd]; exact hl
    simp only [perform, proceed_eq, store_eq]
    refine ⟨trivial, rfl, h.channel_eq, fun b => ?_, fun b hb => ?_, fun b hb => ?_⟩
    · rw [read_write_decided hl]
      by_cases hab : address = b
      · subst hab
        simp only [if_pos, Option.isSome_some, hd]
      · rw [if_neg hab]
        exact h.decided_iff b
    · rw [read_write_decided hl, read_write_decided he, h.agree b hb]
    · have hab : address ≠ b := fun hab => hb (hab ▸ hd)
      rw [read_write_decided he, if_neg hab, h.rest_eq b hb]
  | emit byte registers =>
    simp only [perform, writeByte_eq, h.channel_eq]
    rcases Channel.output late.channel byte with ⟨_ | _, channel⟩
    · exact ⟨rfl, h.registers_eq, rfl, h.decided_iff, h.agree, h.rest_eq⟩
    · exact ⟨rfl, rfl, rfl, h.decided_iff, h.agree, h.rest_eq⟩
  | take registers =>
    simp only [perform, readValue_eq, h.channel_eq]
    rcases Channel.input late.channel with ⟨_ | _, channel⟩
    · exact ⟨rfl, h.registers_eq, rfl, h.decided_iff, h.agree, h.rest_eq⟩
    · exact ⟨rfl, rfl, rfl, h.decided_iff, h.agree, h.rest_eq⟩

/-- Two machines whose phases have the same effect stay in step. -/
theorem step_inStep_of_effect (h : InStep decided rest late early) {lenient : Bool}
    (he : effect lenient late.registers (Memory.read early.memory) =
      effect lenient late.registers (Memory.read late.memory)) :
    (step lenient early).1 = (step lenient late).1 ∧
      InStep decided rest (step lenient late).2 (step lenient early).2 := by
  rw [step_eq_perform, step_eq_perform, h.registers_eq, he]
  refine perform_inStep h _ fun a v r hs => ?_
  exact (h.decided_iff a).mp (effect_store_decided hs)

/-- A phase of the first machine waits for a cell that is not decided, or both
machines stay in step. -/
theorem step_inStep (h : InStep decided rest late early) (lenient : Bool) :
    (∃ a, step lenient late = (.needsDecision a, late) ∧ ¬ decided a) ∨
      (step lenient early).1 = (step lenient late).1 ∧
        InStep decided rest (step lenient late).2 (step lenient early).2 := by
  rcases effect_extends h.extends lenient late.registers with ⟨a, hw⟩ | he
  · refine .inl ⟨a, ?_, h.undecided (effect_wait hw).1⟩
    rw [step_eq_perform, hw, perform]
  · exact .inr (step_inStep_of_effect h he)

/-- Machines that differ in no cell stay in step, even where they wait. -/
theorem step_inStep_of_same (h : InStep decided (fun _ => none) late early) (lenient : Bool) :
    (step lenient early).1 = (step lenient late).1 ∧
      InStep decided (fun _ => none) (step lenient late).2 (step lenient early).2 := by
  have hread : Memory.read early.memory = Memory.read late.memory := funext h.read_eq
  exact step_inStep_of_effect h (by rw [hread])

/-- As long as the first machine completes its phases, both stay in step. -/
theorem calls_inStep (lenient : Bool) (n : Nat) (h : InStep decided rest late early)
    (done : ∀ outcome ∈ (calls lenient n late).1, Completes outcome) :
    (calls lenient n early).1 = (calls lenient n late).1 ∧
      InStep decided rest (calls lenient n late).2 (calls lenient n early).2 := by
  induction n generalizing late early with
  | zero => exact ⟨rfl, h⟩
  | succ n ih =>
    simp only [calls, List.mem_cons, forall_eq_or_imp] at done ⊢
    rcases step_inStep h lenient with ⟨a, hw, -⟩ | ⟨ho, hn⟩
    · exact absurd done.1 (by rw [hw]; exact id)
    · obtain ⟨hos, hns⟩ := ih hn done.2
      exact ⟨by rw [ho, hos], hns⟩

/-- Machines that differ in no cell stay in step for ever. -/
theorem calls_inStep_of_same (lenient : Bool) (n : Nat)
    (h : InStep decided (fun _ => none) late early) :
    (calls lenient n early).1 = (calls lenient n late).1 ∧
      InStep decided (fun _ => none) (calls lenient n late).2 (calls lenient n early).2 := by
  induction n generalizing late early with
  | zero => exact ⟨rfl, h⟩
  | succ n ih =>
    obtain ⟨ho, hn⟩ := step_inStep_of_same h lenient
    obtain ⟨hos, hns⟩ := ih hn
    simp only [calls]
    exact ⟨by rw [ho, hos], hns⟩

end Lockstep

section Alike

variable {M F P : Type} [Memory M] [Memory F]

/-- Two machines that cannot be told apart: registers and channel are the same,
and so is every cell. -/
structure Alike (one : Machine M P) (other : Machine F P) : Prop where
  /-- The registers are the same. -/
  registers_eq : other.registers = one.registers
  /-- The channels are the same. -/
  channel_eq : other.channel = one.channel
  /-- The same cells are decided, with the same values. -/
  read_eq : ∀ a, Memory.read other.memory a = Memory.read one.memory a

variable {one : Machine M P} {other : Machine F P}

/-- Being alike goes both ways. -/
theorem Alike.symm (h : Alike one other) : Alike other one :=
  ⟨h.registers_eq.symm, h.channel_eq.symm, fun a => (h.read_eq a).symm⟩

/-- What is alike to a machine that is alike to a third one is alike to that. -/
theorem Alike.trans {L : Type} [Memory L] {third : Machine L P} (h : Alike one other)
    (h' : Alike other third) : Alike one third :=
  ⟨h'.registers_eq.trans h.registers_eq, h'.channel_eq.trans h.channel_eq,
    fun a => (h'.read_eq a).trans (h.read_eq a)⟩

/-- Alike machines are in step. -/
theorem Alike.inStep (h : Alike one other) :
    InStep (fun a => (Memory.read one.memory a).isSome) (fun _ => none) one other := by
  refine ⟨h.registers_eq, h.channel_eq, fun _ => Iff.rfl, fun a _ => h.read_eq a, fun a ha => ?_⟩
  rw [h.read_eq, Option.not_isSome_iff_eq_none.mp ha]

/-- Machines in step whose memories differ nowhere are alike. -/
theorem InStep.alike {decided : Word → Prop} (h : InStep decided (fun _ => none) one other) :
    Alike one other :=
  ⟨h.registers_eq, h.channel_eq, h.read_eq⟩

/-- Alike machines take alike steps. -/
theorem Alike.step [Channel P] [LawfulMemory M] [LawfulMemory F] (h : Alike one other)
    (lenient : Bool) :
    (step lenient other).1 = (step lenient one).1 ∧
      Alike (step lenient one).2 (step lenient other).2 := by
  obtain ⟨ho, hs⟩ := step_inStep_of_same h.inStep lenient
  exact ⟨ho, hs.alike⟩

/-- Alike machines stay alike when a cell is decided in both. -/
theorem Alike.store [PartialMemory M] [PartialMemory F] (h : Alike one other)
    (address value : Word) : Alike (one.store address value) (other.store address value) := by
  rw [store_eq, store_eq]
  refine ⟨h.registers_eq, h.channel_eq, fun a => ?_⟩
  dsimp only
  rw [PartialMemory.read_write, PartialMemory.read_write, h.read_eq]

end Alike

/-- How a run over a partly decided memory, of which `n` calls complete, is
related to runs over memories that decide more. `part` is the partly decided
memory, `full` one that decides more. -/
structure RunsAhead {M F P : Type} [Memory M] [Memory F] [Channel P] (lenient : Bool)
    (registers : Registers) (channel : P) (part : M) (full : F) (n : Nat)
    (late : List Outcome × Machine M P) (early : List Outcome × Machine F P) : Prop where
  /-- Every call gives the same. -/
  outcomes_eq : early.1 = late.1
  /-- The registers are the same afterwards. -/
  registers_eq : early.2.registers = late.2.registers
  /-- The channel is the same afterwards, so the same calls were made to it. -/
  channel_eq : early.2.channel = late.2.channel
  /-- Decided cells stay decided, and the memories agree on them. -/
  decided : ∀ a, (Memory.read part a).isSome →
    (Memory.read late.2.memory a).isSome ∧
      Memory.read early.2.memory a = Memory.read late.2.memory a
  /-- The other cells are untouched in both memories. -/
  untouched : ∀ a, Memory.read part a = none →
    Memory.read late.2.memory a = none ∧ Memory.read early.2.memory a = Memory.read full a
  /-- If the next call stops for any other reason than an undecided cell, it
  stops in the same way over the full memory. -/
  stops : (∀ a, (step lenient late.2).1 ≠ .needsDecision a) →
    let last := step lenient late.2
    let same := step lenient early.2
    same.1 = last.1 ∧ same.2.registers = last.2.registers ∧ same.2.channel = last.2.channel ∧
      ∀ a, (Memory.read part a).isSome →
        Memory.read same.2.memory a = Memory.read last.2.memory a
  /-- If the next call needs a cell, this cell was undecided from the start, and
  deciding it now gives the same as having decided it then. -/
  resumes : ∀ a, (step lenient late.2).1 = .needsDecision a →
    Memory.read part a = none ∧ (step lenient late.2).2 = late.2 ∧
      ∀ v j,
        let now := calls lenient j (late.2.store a v)
        let before := calls lenient (n + j) ⟨registers, Memory.write part a v, channel⟩
        before.1 = late.1 ++ now.1 ∧ before.2.registers = now.2.registers ∧
          before.2.channel = now.2.channel ∧
          ∀ b, Memory.read before.2.memory b = Memory.read now.2.memory b

section Deciding

variable {M P : Type} [Memory M] [PartialMemory M]

/-- The run that had a cell decided from the start is in step with the run that
has not, as long as that one completes its phases. -/
theorem written_inStep (registers : Registers) (channel : P) (part : M) {a : Word}
    (ha : Memory.read part a = none) (v : Word) :
    InStep (fun b => (Memory.read part b).isSome) (fun b => if a = b then some v else none)
      ⟨registers, part, channel⟩ ⟨registers, Memory.write part a v, channel⟩ := by
  refine ⟨rfl, rfl, fun _ => Iff.rfl, fun b hb => ?_, fun b hb => ?_⟩
  · have hab : a ≠ b := by
      rintro rfl
      rw [ha] at hb
      cases hb
    rw [PartialMemory.read_write, if_neg hab]
  · rw [PartialMemory.read_write, Option.not_isSome_iff_eq_none.mp hb]

/-- Once the cell has been decided in the other run as well, the two machines
differ in no cell. -/
theorem stored_inStep {late early : Machine M P} {decided : Word → Prop} {a v : Word}
    (h : InStep decided (fun b => if a = b then some v else none) late early)
    (ha : ¬ decided a) :
    InStep (fun b => decided b ∨ a = b) (fun _ => none) (late.store a v) early := by
  refine (h.decide ha (if_pos rfl)).congr (fun _ => Iff.rfl) fun b hb => ?_
  rw [not_or] at hb
  exact if_neg hb.2

/-- Deciding a cell when it is needed gives the same run as having decided it
from the start. -/
theorem calls_store [Channel P] (lenient : Bool) (registers : Registers) (channel : P) (part : M) (n : Nat)
    (done : ∀ outcome ∈ (calls lenient n ⟨registers, part, channel⟩).1, Completes outcome)
    {a : Word} (ha : Memory.read part a = none) (v : Word) (j : Nat) :
    let late := calls lenient n ⟨registers, part, channel⟩
    let now := calls lenient j (late.2.store a v)
    let before := calls lenient (n + j) ⟨registers, Memory.write part a v, channel⟩
    before.1 = late.1 ++ now.1 ∧
      InStep (fun b => (Memory.read part b).isSome ∨ a = b) (fun _ => none) now.2 before.2 := by
  obtain ⟨ho, hs⟩ := calls_inStep lenient n (written_inStep registers channel part ha v) done
  have hd : ¬ (Memory.read part a).isSome := by rw [ha]; exact Bool.false_ne_true
  obtain ⟨hos, hss⟩ := calls_inStep_of_same lenient j (stored_inStep hs hd)
  dsimp only
  rw [calls_add]
  exact ⟨by rw [ho, hos], hss⟩

end Deciding

section Main

variable {M F P : Type} [Memory M] [PartialMemory M] [Memory F] [LawfulMemory F] [Channel P]

/-- A run over a partly decided memory of which `n` calls complete is the run
over every memory that decides more; it stops as that run does, except where it
needs a cell, and there it can be resumed as if the cell had been decided from
the start. Nothing is assumed of the registers, and of the channel only that its
answers come from its own state, which only calls change; with a `Recorded`
channel the statement says that the same calls were made. -/
theorem late_decisions_keep_run (lenient : Bool) (registers : Registers) (channel : P)
    (part : M) (full : F) (agree : ∀ a v, Memory.read part a = some v → Memory.read full a = some v)
    (n : Nat)
    (done : ∀ outcome ∈ (calls lenient n ⟨registers, part, channel⟩).1, Completes outcome) :
    RunsAhead lenient registers channel part full n
      (calls lenient n ⟨registers, part, channel⟩) (calls lenient n ⟨registers, full, channel⟩) := by
  have hstart : InStep (fun a => (Memory.read part a).isSome) (Memory.read full)
      ⟨registers, part, channel⟩ ⟨registers, full, channel⟩ := by
    refine ⟨rfl, rfl, fun _ => Iff.rfl, fun a ha => ?_, fun _ _ => rfl⟩
    obtain ⟨v, hv⟩ := Option.isSome_iff_exists.mp ha
    dsimp only
    rw [hv, agree a v hv]
  obtain ⟨ho, hs⟩ := calls_inStep lenient n hstart done
  refine ⟨ho, hs.registers_eq, hs.channel_eq, fun a ha => ⟨(hs.decided_iff a).mpr ha, hs.agree a ha⟩,
    fun a ha => ?_, fun hn => ?_, fun a hn => ?_⟩
  · have hd : ¬ (Memory.read part a).isSome := by rw [ha]; exact Bool.false_ne_true
    refine ⟨?_, hs.rest_eq a hd⟩
    rw [← Option.not_isSome_iff_eq_none, hs.decided_iff]
    exact hd
  · rcases step_inStep hs lenient with ⟨a, hw, -⟩ | ⟨ho', hs'⟩
    · exact absurd (by rw [hw]) (hn a)
    · exact ⟨ho', hs'.registers_eq, hs'.channel_eq, hs'.agree⟩
  · obtain ⟨hw, hr, -⟩ := step_needsDecision hn
    have ha : Memory.read part a = none := by
      rw [← Option.not_isSome_iff_eq_none, ← hs.decided_iff, hr]
      exact Bool.false_ne_true
    refine ⟨ha, by rw [hw], fun v j => ?_⟩
    obtain ⟨hos, hss⟩ := calls_store lenient registers channel part n done ha v j
    exact ⟨hos, hss.registers_eq, hss.channel_eq, hss.read_eq⟩

/-- A program that prints a byte and then moves its data pointer, with and
without the cell that comes next: both make the same call to the channel. -/
theorem late_decisions_keep_run_of_print :
    let part : SparseMemory := ⟨[(0, 99), (1, 39)]⟩
    let full : SparseMemory := ⟨[(2, 38), (1, 39), (0, 99)]⟩
    let channel : Recorded Transcript.Transcript := ⟨.withoutInput [], []⟩
    (∀ a v, Memory.read part a = some v → Memory.read full a = some v) ∧
      (∀ outcome ∈ (calls false 4 ⟨.initial, part, channel⟩).1, Completes outcome) ∧
      (calls false 4 ⟨.initial, full, channel⟩).2.channel.record = [.output 0] ∧
      (step false (calls false 4 ⟨.initial, part, channel⟩).2).1 = .needsDecision 2 ∧
      Memory.read part 2 = none := by
  intro part full channel
  have agree : ∀ a v, Memory.read part a = some v → Memory.read full a = some v := by
    intro a v h
    have hc : (a = 0 ∧ v = 99) ∨ (a = 1 ∧ v = 39) := by
      simp only [Memory.read, SparseMemory.read, part, List.find?] at h
      grind
    rcases hc with ⟨rfl, rfl⟩ | ⟨rfl, rfl⟩ <;> rfl
  have done : ∀ outcome ∈ (calls false 4 ⟨.initial, part, channel⟩).1, Completes outcome := by
    decide
  have needs : (step false (calls false 4 ⟨.initial, part, channel⟩).2).1 = .needsDecision 2 := by
    decide
  have h := late_decisions_keep_run false .initial channel part full agree 4 done
  refine ⟨agree, done, ?_, needs, (h.resumes 2 needs).1⟩
  rw [h.channel_eq]
  decide

end Main

end TernarySynth.Proofs.LateDecision
