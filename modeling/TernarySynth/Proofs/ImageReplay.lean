import TernarySynth.ImageRun
import TernarySynth.Proofs.CodeValues
import TernarySynth.Proofs.LateDecision

/-!
# Replaying a run on streams

A run that needs no input is the same with every reader, every sink that takes
its bytes, and also with printable cells as no-ops. So when a machine with a
transcript exits after some phases, then an execution of an image in the same
state exits after as many, and what it has written to its sink is the output of
the transcript.
-/

namespace TernarySynth.Proofs.ImageReplay

open TritWord CellCode MemoryImage TernarySynth.Cycle Transcript ByteStream ImageRun
open CodeValues PhaseEffect LateDecision

section Leniency

variable {registers : Registers} {read : Word → Option Word}

/-- A printable cell that names no instruction where the machine fetches it. -/
structure Unnamed (registers : Registers) (read : Word → Option Word) (value : Word) : Prop where
  /-- The phase is a fetch. -/
  fetching : registers.phase = .fetch
  /-- The cell under the code pointer holds the value. -/
  holds : read registers.c = some value
  /-- The value is printable. -/
  printable : isPrintable value = true
  /-- It names no instruction there. -/
  nameless : decode false registers.c value = none

/-- A strict phase is refused a cell that names no instruction. -/
theorem Unnamed.strict {value : Word} (h : Unnamed registers read value) :
    effect false registers read = .refuse (.undecodable registers.c value) := by
  obtain ⟨hp, hv, -, hd⟩ := h
  simp only [effect, hp, fetchEffect, needing, hv, hd]

/-- A lenient phase executes a no-op there. -/
theorem Unnamed.lenient {value : Word} (h : Unnamed registers read value) :
    effect true registers read = executeEffect registers read .noOp := by
  obtain ⟨hp, hv, hprintable, hd⟩ := h
  simp only [effect, hp, fetchEffect, needing, hv, decode_nameless hprintable hd]

/-- Lenient phases have the effect of strict ones, except where a strict one
finds a printable cell that names no instruction. -/
theorem effect_lenient (registers : Registers) (read : Word → Option Word) :
    effect true registers read = effect false registers read ∨
      ∃ value, Unnamed registers read value := by
  unfold effect
  cases hphase : registers.phase with
  | advance => exact .inl rfl
  | fetch =>
    simp only [fetchEffect, needing]
    cases hv : read registers.c with
    | none => exact .inl rfl
    | some value =>
      dsimp only
      cases hd : decode false registers.c value with
      | some instruction =>
        rw [decode_lenient hd true]
        exact .inl rfl
      | none =>
        by_cases hp : isPrintable value = true
        · exact .inr ⟨value, hphase, hv, hp, hd⟩
        · rw [decode, if_neg hp]
          exact .inl rfl

/-- A phase that does not fail has the same effect when printable cells may be
no-ops as well. -/
theorem effect_relaxed {lenient relaxed : Bool} (h : lenient = true → relaxed = true)
    (hf : ∀ fault, effect lenient registers read ≠ .refuse fault) :
    effect relaxed registers read = effect lenient registers read := by
  cases lenient with
  | true => rw [h rfl]
  | false =>
    cases relaxed with
    | false => rfl
    | true =>
      rcases effect_lenient registers read with he | ⟨value, unnamed⟩
      · exact he
      · exact absurd unnamed.strict (hf _)

end Leniency

section Sinks

variable {S : Type} [ByteSink S]

/-- A sink after some bytes have been written to it, one after the other. -/
def afterBytes (sink : S) (bytes : List UInt8) : S :=
  bytes.foldl (fun sink byte => (ByteSink.writeByte sink byte).2) sink

/-- A sink that takes every byte, whatever was written to it before. -/
def Tireless (sink : S) : Prop :=
  ∀ bytes byte, (ByteSink.writeByte (afterBytes sink bytes) byte).1 = .ok ()

/-- Bytes that are written in two portions. -/
theorem afterBytes_append (sink : S) (bytes more : List UInt8) :
    afterBytes sink (bytes ++ more) = afterBytes (afterBytes sink bytes) more :=
  List.foldl_append

/-- A scripted sink that takes everything has taken these bytes. -/
theorem afterBytes_reliable (bytes : List UInt8) :
    afterBytes ScriptedSink.reliable bytes =
      { ScriptedSink.reliable with bytes := bytes.toArray } := by
  have hpush : ∀ taken : Array UInt8,
      afterBytes { ScriptedSink.reliable with bytes := taken } bytes =
        { ScriptedSink.reliable with bytes := taken ++ bytes.toArray } := by
    induction bytes with
    | nil =>
      intro taken
      rw [Array.append_empty]
      rfl
    | cons byte bytes ih =>
      intro taken
      refine (ih (taken.push byte)).trans ?_
      rw [← List.push_append_toArray]
  refine (hpush #[]).trans ?_
  rw [Array.empty_append]

/-- It does so for ever. -/
theorem tireless_reliable : Tireless ScriptedSink.reliable := by
  intro bytes byte
  rw [afterBytes_reliable]
  rfl

/-- A machine whose output has gone to a sink instead of a transcript, and which
reads from a stream. -/
def onStream {M : Type} (reader : List ReadEvent) (sink : S) (machine : Machine M Transcript) :
    Machine M (StreamChannel S) :=
  ⟨machine.registers, machine.memory, ⟨reader, afterBytes sink machine.channel.output⟩⟩

/-- A tireless sink takes one byte more. -/
theorem output_tireless {sink : S} (ht : Tireless sink) (reader : List ReadEvent)
    (bytes : List UInt8) (byte : UInt8) :
    Channel.output (StreamChannel.mk reader (afterBytes sink bytes)) byte =
      (.ok (), StreamChannel.mk reader (afterBytes sink (bytes ++ [byte]))) := by
  have htaken := ht bytes byte
  simp only [Channel.output, StreamChannel.output, afterBytes_append]
  rcases hw : ByteSink.writeByte (afterBytes sink bytes) byte with ⟨answer, taken⟩
  rw [hw] at htaken
  dsimp only at htaken
  subst htaken
  simp only [StreamChannel.report, afterBytes, List.foldl_cons, List.foldl_nil]
  rw [← afterBytes, hw]

variable {M : Type} [Memory M] {sink : S}
variable {machine : Machine M Transcript} {status : Status}

/-- An effect that completes without an input completes on a stream too, and
the sink takes what the transcript does. -/
theorem perform_onStream (reader : List ReadEvent) (ht : Tireless sink)
    (hi : machine.channel.input = none) {effect : Effect}
    (hc : (perform machine effect).1 = .completed status) :
    perform (onStream reader sink machine) effect =
        (.completed status, onStream reader sink (perform machine effect).2) ∧
      (perform machine effect).2.channel.input = none := by
  cases effect with
  | wait address => cases hc
  | refuse fault => cases hc
  | overflow => cases hc
  | halt =>
    cases hc
    exact ⟨rfl, hi⟩
  | move registers =>
    cases hc
    exact ⟨rfl, hi⟩
  | store address value registers =>
    cases hc
    exact ⟨rfl, hi⟩
  | emit byte registers =>
    cases hc
    refine ⟨?_, hi⟩
    simp only [perform, writeByte_eq, onStream, output_tireless ht]
    rfl
  | take registers =>
    obtain ⟨before, memory, output, input⟩ := machine
    dsimp only at hi
    subst hi
    cases hc

/-- A phase that completes without an input completes on a stream too. -/
theorem step_onStream (reader : List ReadEvent) (ht : Tireless sink) {lenient relaxed : Bool}
    (hr : lenient = true → relaxed = true) (hi : machine.channel.input = none)
    (hc : (step lenient machine).1 = .completed status) :
    step relaxed (onStream reader sink machine) =
        (.completed status, onStream reader sink (step lenient machine).2) ∧
      (step lenient machine).2.channel.input = none := by
  rw [step_eq_perform] at hc ⊢
  have hf : ∀ fault, effect lenient machine.registers (Memory.read machine.memory) ≠
      .refuse fault := by
    intro fault he
    rw [he] at hc
    cases hc
  rw [step_eq_perform]
  have he := effect_relaxed hr hf
  change perform _ (effect relaxed machine.registers (Memory.read machine.memory)) = _ ∧ _
  rw [he]
  exact perform_onStream reader ht hi hc

end Sinks

section Runs

variable {S : Type} [ByteSink S] {sink : S} {lenient relaxed : Bool}

/-- The execution of the image of a machine. -/
def executionOf {P : Type} (relaxed : Bool) (phases : Nat) (machine : Machine Image P) :
    Execution :=
  ⟨machine.registers, machine.memory, relaxed, phases⟩

/-- A phase of an execution that completes. -/
theorem executionStep_eq {P : Type} [Channel P] {machine next : Machine Image P}
    {status : Status} (h : step relaxed machine = (.completed status, next)) (phases : Nat) :
    (executionOf relaxed phases machine).step machine.channel =
      (.completed status, executionOf relaxed (phases + 1) next, next.channel) := by
  obtain ⟨registers, image, channel⟩ := machine
  simp only [executionOf, Execution.step, h]

/-- Where a machine exits after phases that complete, an execution of its image
exits as well, and what is in its sink then is the output of the machine. -/
theorem run_onStream (reader : List ReadEvent) (ht : Tireless sink)
    (hr : lenient = true → relaxed = true) {n : Nat} {machine : Machine Image Transcript}
    (hi : machine.channel.input = none)
    (running : ∀ outcome ∈ (calls lenient n machine).1, outcome = .completed .running)
    (exits : (step lenient (calls lenient n machine).2).1 = .completed .exited)
    (phases : Nat) :
    let last := (step lenient (calls lenient n machine).2).2
    (executionOf relaxed phases machine).run (n + 1) (onStream reader sink machine).channel =
      (.exited, executionOf relaxed (phases + n + 1) last,
        (onStream reader sink last).channel) := by
  induction n generalizing machine phases with
  | zero =>
    obtain ⟨hs, -⟩ := step_onStream reader ht hr hi exits
    have hstep := executionStep_eq hs phases
    change (executionOf relaxed phases machine).step _ = _ at hstep
    rw [Execution.run, hstep]
    rfl
  | succ n ih =>
    simp only [calls, List.mem_cons, forall_eq_or_imp] at running exits ⊢
    obtain ⟨hs, hnext⟩ := step_onStream reader ht hr hi running.1
    have hstep := executionStep_eq hs phases
    change (executionOf relaxed phases machine).step _ = _ at hstep
    rw [Execution.run, hstep]
    dsimp only
    refine (ih hnext running.2 exits (phases + 1)).trans ?_
    rw [show phases + 1 + n + 1 = phases + (n + 1) + 1 by omega]

end Runs

end TernarySynth.Proofs.ImageReplay
