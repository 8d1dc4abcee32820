import Mathlib.Data.List.TakeDrop
import TernarySynth.ImageRun
import TernarySynth.Proofs.PhaseEffect

/-!
# What goes through the streams

Whatever fails in between, a sink takes each byte of an output once, behind those
before it, and a reader gives each word to one input, in order. `Carries` says
this of a channel between two moments. A call that fails carries nothing; a
phase that completes carries the byte of its output or the word of its input,
and any other phase does without the channel. Outputs and inputs are told from
the cell that a phase decodes, not from what it does to the channel.
-/

namespace TernarySynth.Proofs.StreamTraffic

open TritWord CellCode MemoryImage TernarySynth.Cycle ByteStream StreamError ImageRun
open PhaseEffect

section Readers

/-- Whether a read that meets this event succeeds, at the end of the input too. -/
def delivers : ReadEvent → Bool
  | .byte _ => true
  | .ended => true
  | .interrupted => false
  | .refused error => decide (error = .unexpectedEof)

/-- The word that such a read gives: the byte, or the word for the end of the input. -/
def delivery : ReadEvent → Word
  | .byte value => value.toNat
  | _ => eofWord

/-- The words that a reader has for a caller who goes on reading. -/
def deliveries (reader : List ReadEvent) : List Word := (reader.filter delivers).map delivery

/-- A read that succeeds is the one that finds no failing event before its own. -/
theorem readByte_delivered {reader rest : List ReadEvent} {byte : Option UInt8}
    (h : readByte reader = (.ok byte, rest)) :
    readByte (reader.filter delivers) = (.ok byte, rest.filter delivers) := by
  induction reader with
  | nil =>
    cases h
    rfl
  | cons event reader ih =>
    cases event with
    | byte value =>
      cases h
      rfl
    | ended =>
      cases h
      rfl
    | interrupted => exact ih h
    | refused error =>
      by_cases he : error = .unexpectedEof
      · subst he
        cases h
        rfl
      · rw [readByte] at h
        · cases h
        · exact he

/-- It gives the next word and leaves the others. -/
theorem readByte_deliveries {reader rest : List ReadEvent} {byte : Option UInt8}
    (h : readByte reader = (.ok byte, rest)) :
    StreamChannel.wordOf byte = (deliveries reader).head?.getD eofWord ∧
      deliveries rest = (deliveries reader).tail := by
  have hdelivered := readByte_delivered h
  have hall : ∀ event ∈ reader.filter delivers, delivers event = true :=
    fun event hm => (List.mem_filter.mp hm).2
  unfold deliveries
  generalize reader.filter delivers = events at hdelivered hall
  cases events with
  | nil =>
    obtain ⟨hbyte, hrest⟩ := Prod.mk.inj hdelivered
    cases hbyte
    rw [← hrest]
    exact ⟨rfl, rfl⟩
  | cons event events =>
    have hevent := hall event List.mem_cons_self
    cases event with
    | byte value =>
      obtain ⟨hbyte, hrest⟩ := Prod.mk.inj hdelivered
      cases hbyte
      rw [← hrest]
      exact ⟨rfl, rfl⟩
    | ended =>
      obtain ⟨hbyte, hrest⟩ := Prod.mk.inj hdelivered
      cases hbyte
      rw [← hrest]
      exact ⟨rfl, rfl⟩
    | interrupted => cases hevent
    | refused error =>
      obtain rfl := of_decide_eq_true hevent
      obtain ⟨hbyte, hrest⟩ := Prod.mk.inj hdelivered
      cases hbyte
      rw [← hrest]
      exact ⟨rfl, rfl⟩

/-- A read that fails uses up failing events only. -/
theorem readByte_failed {reader rest : List ReadEvent} {error : IoError}
    (h : readByte reader = (.error error, rest)) :
    reader.filter delivers = rest.filter delivers := by
  induction reader with
  | nil => cases h
  | cons event reader ih =>
    cases event with
    | byte value => cases h
    | ended => cases h
    | interrupted => exact ih h
    | refused cause =>
      by_cases he : cause = .unexpectedEof
      · subst he
        cases h
      · have hskipped : delivers (.refused cause) = false := decide_eq_false he
        rw [readByte] at h
        · cases h
          rw [List.filter_cons_of_neg (by simp [hskipped])]
        · exact he

end Readers

section Sinks

/-- A sink takes each byte that it accepts and nothing else: a write that fails takes
nothing, and neither does a flush. -/
structure Faithful {S : Type} [ByteSink S] (taken : S → List UInt8) : Prop where
  /-- A byte that was accepted comes behind those before it. -/
  accepts : ∀ sink byte, (ByteSink.writeByte sink byte).1 = .ok () →
    taken (ByteSink.writeByte sink byte).2 = taken sink ++ [byte]
  /-- A byte that was refused is not taken. -/
  refuses : ∀ sink byte error, (ByteSink.writeByte sink byte).1 = .error error →
    taken (ByteSink.writeByte sink byte).2 = taken sink
  /-- A flush takes no byte, whether it succeeds or not. -/
  flushes : ∀ sink : S, taken (ByteSink.flush sink).2 = taken sink

/-- Scripted sinks are faithful, whatever their script says. -/
theorem scripted_faithful : Faithful fun sink : ScriptedSink => sink.bytes.toList := by
  constructor
  · rintro ⟨bytes, flushes, freeWrites, script, fault, freeFlushes, flushScript⟩ byte h
    cases freeWrites with
    | succ free => exact Array.toList_push
    | zero =>
      simp only [ByteSink.writeByte, ScriptedSink.writeByte] at h ⊢
      rcases hn : ScriptedSink.nextWrite fault script with ⟨error | _, rest⟩
      · rw [hn] at h
        cases h
      · exact Array.toList_push
  · rintro ⟨bytes, flushes, freeWrites, script, fault, freeFlushes, flushScript⟩ byte error h
    cases freeWrites with
    | succ free => cases h
    | zero =>
      simp only [ByteSink.writeByte, ScriptedSink.writeByte] at h ⊢
      rcases hn : ScriptedSink.nextWrite fault script with ⟨cause | _, rest⟩
      · rfl
      · rw [hn] at h
        cases h
  · rintro ⟨bytes, flushes, freeWrites, script, fault, freeFlushes, flushScript⟩
    cases freeFlushes <;> rfl

end Sinks

section Channels

/-- A list is filled up in portions. -/
theorem takeD_add {α : Type} (m n : Nat) (xs : List α) (filler : α) :
    xs.takeD (m + n) filler = xs.takeD m filler ++ (xs.drop m).takeD n filler := by
  induction m generalizing xs with
  | zero => rw [Nat.zero_add, List.takeD_zero, List.drop_zero, List.nil_append]
  | succ m ih =>
    rw [Nat.succ_add, List.takeD_succ, List.takeD_succ, ih, List.drop_tail, List.cons_append]

variable {S : Type} {taken : S → List UInt8} {channel middle after : StreamChannel S}
variable {bytes moreBytes : List UInt8} {words moreWords : List Word}

/-- Between two moments these bytes have gone out through a channel and these words have
come in: the bytes stand behind those that the sink had taken, and the words are the next
that the reader has, which has no others once its input has ended. -/
structure Carries (taken : S → List UInt8) (before after : StreamChannel S)
    (bytes : List UInt8) (words : List Word) : Prop where
  /-- No byte is lost, and none is taken twice. -/
  written : taken after.sink = taken before.sink ++ bytes
  /-- No word is skipped, and none is read twice. -/
  entered : words = (deliveries before.reader).takeD words.length eofWord
  /-- The words behind them are still to be read. -/
  left : deliveries after.reader = (deliveries before.reader).drop words.length

/-- Nothing is carried where the bytes and the words are the same as before. -/
theorem carries_nothing (written : taken after.sink = taken channel.sink)
    (left : deliveries after.reader = deliveries channel.reader) :
    Carries taken channel after [] [] :=
  ⟨written.trans (List.append_nil _).symm, rfl, left⟩

/-- What is carried first goes before what is carried later. -/
theorem Carries.trans (h : Carries taken channel middle bytes words)
    (h' : Carries taken middle after moreBytes moreWords) :
    Carries taken channel after (bytes ++ moreBytes) (words ++ moreWords) := by
  refine ⟨?_, ?_, ?_⟩
  · rw [h'.written, h.written, List.append_assoc]
  · have hmore := h'.entered
    rw [h.left] at hmore
    rw [List.length_append, takeD_add, ← h.entered, ← hmore]
  · rw [h'.left, h.left, List.drop_drop, List.length_append]

variable [ByteSink S]

/-- An output carries its byte, or it fails. -/
theorem carries_output (faithful : Faithful taken) (channel : StreamChannel S) (byte : UInt8) :
    (∃ fault after, Channel.output channel byte = (.error fault, after) ∧
        Carries taken channel after [] []) ∨
      ∃ after, Channel.output channel byte = (.ok (), after) ∧
        Carries taken channel after [byte] [] := by
  obtain ⟨reader, sink⟩ := channel
  simp only [Channel.output, StreamChannel.output]
  cases hw : (ByteSink.writeByte sink byte).1 with
  | error error =>
    exact .inl ⟨_, _, rfl, carries_nothing (faithful.refuses sink byte error hw) rfl⟩
  | ok => exact .inr ⟨_, rfl, faithful.accepts sink byte hw, rfl, rfl⟩

/-- An input carries its word, or it fails: in the flush before it or in the read. -/
theorem carries_input (faithful : Faithful taken) (channel : StreamChannel S) :
    (∃ fault after, Channel.input channel = (.error fault, after) ∧
        Carries taken channel after [] []) ∨
      ∃ word after, Channel.input channel = (.ok word, after) ∧
        Carries taken channel after [] [word] := by
  obtain ⟨reader, sink⟩ := channel
  have hkept := faithful.flushes sink
  simp only [Channel.input, StreamChannel.input, StreamChannel.flush]
  cases hf : (ByteSink.flush sink).1 with
  | error error => exact .inl ⟨_, _, rfl, carries_nothing hkept rfl⟩
  | ok =>
    simp only [StreamChannel.report]
    rcases hr : readByte reader with ⟨error | byte, rest⟩
    · have hskipped := congrArg (List.map delivery) (readByte_failed hr)
      exact .inl ⟨_, _, rfl, carries_nothing hkept hskipped.symm⟩
    · obtain ⟨hword, hrest⟩ := readByte_deliveries hr
      refine .inr ⟨_, _, rfl, hkept.trans (List.append_nil _).symm, ?_, ?_⟩
      · rw [List.length_singleton, List.takeD_succ, List.takeD_zero, ← hword]
      · rw [List.length_singleton, List.drop_one]
        exact hrest

end Channels

section Phases

variable {execution : Execution}

/-- The instruction that the next phase executes. There is none in the advance phase, and
none where the code cell names none. -/
def nextInstruction (execution : Execution) : Option Instruction :=
  match execution.registers.phase with
  | .fetch =>
    (execution.image.read execution.registers.c).bind
      (decode execution.lenient execution.registers.c)
  | .advance => none

/-- The effect of the next phase. -/
def nextEffect (execution : Execution) : Effect :=
  effect execution.lenient execution.registers (Memory.read execution.image)

/-- It is that of the instruction, if there is one. -/
theorem nextEffect_of_instruction {instruction : Instruction}
    (h : nextInstruction execution = some instruction) :
    nextEffect execution =
      executeEffect execution.registers (Memory.read execution.image) instruction := by
  obtain ⟨⟨a, c, d, phase⟩, image, lenient, phases⟩ := execution
  cases phase with
  | advance => cases h
  | fetch =>
    obtain ⟨value, hread, hdecode⟩ := Option.bind_eq_some_iff.mp h
    have hcell : Memory.read image c = some value := hread
    simp only [nextEffect, effect, fetchEffect, needing, hcell, hdecode]

/-- An effect that has nothing to do with the channel. -/
def Mute : Effect → Prop
  | .emit _ _ => False
  | .take _ => False
  | _ => True

/-- A need is mute if what it leads to is. -/
theorem needing_mute {read : Word → Option Word} {address : Word} {next : Word → Effect}
    (h : ∀ value, read address = some value → Mute (next value)) :
    Mute (needing read address next) := by
  rcases needing_cases read address next with ⟨-, he⟩ | ⟨value, hread, he⟩
  · rw [he]
    trivial
  · rw [he]
    exact h value hread

/-- Only outputs and inputs have to do with the channel. -/
theorem executeEffect_mute (registers : Registers) (read : Word → Option Word)
    {instruction : Instruction} (hout : instruction ≠ .output) (hin : instruction ≠ .input) :
    Mute (executeEffect registers read instruction) := by
  cases instruction with
  | output => exact absurd rfl hout
  | input => exact absurd rfl hin
  | moveD => exact needing_mute fun _ _ => trivial
  | jump => exact needing_mute fun _ _ => trivial
  | rotateRight => exact needing_mute fun _ _ => trivial
  | combine => exact needing_mute fun _ _ => trivial
  | exit => trivial
  | noOp => trivial

/-- So a phase is mute unless it executes one of them. -/
theorem nextEffect_mute (hout : nextInstruction execution ≠ some .output)
    (hin : nextInstruction execution ≠ some .input) : Mute (nextEffect execution) := by
  obtain ⟨⟨a, c, d, phase⟩, image, lenient, phases⟩ := execution
  cases phase with
  | advance =>
    refine needing_mute fun value _ => ?_
    cases encrypt value with
    | none => trivial
    | some encrypted =>
      dsimp only
      split <;> trivial
  | fetch =>
    refine needing_mute fun value hread => ?_
    cases hdecode : decode lenient c value with
    | none => trivial
    | some instruction =>
      have hnext : nextInstruction ⟨⟨a, c, d, .fetch⟩, image, lenient, phases⟩ =
          some instruction := Option.bind_eq_some_iff.mpr ⟨value, hread, hdecode⟩
      exact executeEffect_mute _ _ (fun he => hout (he ▸ hnext)) (fun he => hin (he ▸ hnext))

/-- Whether a phase ran to completion. -/
def isCompleted : StepEnd → Bool
  | .completed _ => true
  | _ => false

section Steps

variable {P : Type} [Channel P]

/-- An output writes the accumulator, or it fails and changes nothing. -/
theorem step_of_output (h : nextInstruction execution = some .output) (channel : P) :
    execution.step channel =
      match Channel.output channel (UInt8.ofNat (execution.registers.a % 256)) with
      | (.ok (), channel) =>
        (.completed .running, ⟨{ execution.registers with phase := .advance }, execution.image,
          execution.lenient, execution.phases + 1⟩, channel)
      | (.error fault, channel) => (.failed fault, execution, channel) := by
  have he := nextEffect_of_instruction h
  obtain ⟨registers, image, lenient, phases⟩ := execution
  change effect lenient registers (Memory.read image) = .emit _ _ at he
  rw [Execution.step, step_eq_perform, he]
  simp only [perform, writeByte_eq]
  rcases Channel.output channel _ with ⟨fault | _, after⟩ <;> rfl

/-- An input loads the accumulator with what it reads, or it fails and changes nothing. -/
theorem step_of_input (h : nextInstruction execution = some .input) (channel : P) :
    execution.step channel =
      match Channel.input channel with
      | (.ok value, channel) =>
        (.completed .running, ⟨{ execution.registers with phase := .advance, a := value },
          execution.image, execution.lenient, execution.phases + 1⟩, channel)
      | (.error fault, channel) => (.failed fault, execution, channel) := by
  have he := nextEffect_of_instruction h
  obtain ⟨registers, image, lenient, phases⟩ := execution
  change effect lenient registers (Memory.read image) = .take _ at he
  rw [Execution.step, step_eq_perform, he]
  simp only [perform, readValue_eq]
  rcases Channel.input channel with ⟨fault | value, after⟩ <;> rfl

/-- Any other phase does the same on every channel and leaves it as it is. -/
theorem step_of_mute (h : Mute (nextEffect execution)) :
    ∃ answer after, (isCompleted answer = false → after = execution) ∧
      ∀ {P : Type} [Channel P] (channel : P), execution.step channel = (answer, after, channel) := by
  obtain ⟨registers, image, lenient, phases⟩ := execution
  have hstep : ∀ {P : Type} [Channel P] (channel : P),
      step lenient (Machine.mk registers image channel) =
        perform (Machine.mk registers image channel)
          (effect lenient registers (Memory.read image)) :=
    fun channel => step_eq_perform lenient _
  change Mute (effect lenient registers (Memory.read image)) at h
  simp only [Execution.step, hstep]
  generalize effect lenient registers (Memory.read image) = effect at h
  cases effect with
  | wait address => exact ⟨_, _, fun _ => rfl, fun _ => rfl⟩
  | refuse fault => exact ⟨_, _, fun _ => rfl, fun _ => rfl⟩
  | overflow => exact ⟨_, _, fun _ => rfl, fun _ => rfl⟩
  | halt =>
    exact ⟨.completed .exited, ⟨registers, image, lenient, phases + 1⟩, nofun, fun _ => rfl⟩
  | move after =>
    exact ⟨.completed .running, ⟨after, image, lenient, phases + 1⟩, nofun, fun _ => rfl⟩
  | store address value after =>
    exact ⟨.completed .running, ⟨after, Memory.write image address value, lenient, phases + 1⟩,
      nofun, fun _ => rfl⟩
  | emit byte after => exact h.elim
  | take after => exact h.elim

end Steps

/-- A phase that has run to completion. -/
structure Passage where
  /-- The execution before it. -/
  before : Execution
  /-- The execution after it. -/
  after : Execution

/-- The byte that the phase has written, if it was an output: the accumulator, in 8 bits. -/
def Passage.written (passage : Passage) : List UInt8 :=
  if nextInstruction passage.before = some .output then
    [UInt8.ofNat (passage.before.registers.a % 256)]
  else []

/-- The word that the phase has read, if it was an input: it is in the accumulator. -/
def Passage.entered (passage : Passage) : List Word :=
  if nextInstruction passage.before = some .input then [passage.after.registers.a] else []

/-- A call that completes a phase carries what the phase has written and read. Any other
call carries nothing and leaves the execution as it was. -/
theorem step_carries {S : Type} [ByteSink S] {taken : S → List UInt8} (faithful : Faithful taken)
    (execution : Execution) (channel : StreamChannel S) :
    (∃ answer after, isCompleted answer = false ∧
        execution.step channel = (answer, execution, after) ∧ Carries taken channel after [] []) ∨
      ∃ status next after, execution.step channel = (.completed status, next, after) ∧
        Carries taken channel after (Passage.mk execution next).written
          (Passage.mk execution next).entered := by
  by_cases hout : nextInstruction execution = some .output
  · have hin : nextInstruction execution ≠ some .input := by
      rw [hout]
      nofun
    rw [step_of_output hout]
    simp only [Passage.written, Passage.entered, if_pos hout, if_neg hin]
    rcases carries_output faithful channel (UInt8.ofNat (execution.registers.a % 256)) with
      ⟨fault, after, hfails, hnothing⟩ | ⟨after, haccepts, hbyte⟩
    · rw [hfails]
      exact .inl ⟨_, after, rfl, rfl, hnothing⟩
    · rw [haccepts]
      exact .inr ⟨_, _, after, rfl, hbyte⟩
  by_cases hin : nextInstruction execution = some .input
  · rw [step_of_input hin]
    simp only [Passage.written, Passage.entered, if_neg hout, if_pos hin]
    rcases carries_input faithful channel with
      ⟨fault, after, hfails, hnothing⟩ | ⟨word, after, hreads, hword⟩
    · rw [hfails]
      exact .inl ⟨_, after, rfl, rfl, hnothing⟩
    · rw [hreads]
      exact .inr ⟨_, _, after, rfl, hword⟩
  · simp only [Passage.written, Passage.entered, if_neg hout, if_neg hin]
    obtain ⟨answer, next, hstays, hstep⟩ := step_of_mute (nextEffect_mute hout hin)
    rw [hstep channel]
    have hnothing : Carries taken channel channel [] [] := carries_nothing rfl rfl
    cases answer with
    | completed status => exact .inr ⟨status, next, channel, rfl, hnothing⟩
    | failed fault =>
      obtain rfl := hstays rfl
      exact .inl ⟨_, channel, rfl, rfl, hnothing⟩
    | overflowed =>
      obtain rfl := hstays rfl
      exact .inl ⟨_, channel, rfl, rfl, hnothing⟩

end Phases

end TernarySynth.Proofs.StreamTraffic
