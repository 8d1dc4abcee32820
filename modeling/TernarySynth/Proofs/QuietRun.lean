import TernarySynth.Proofs.CellReads
import TernarySynth.Proofs.ImageReplay

/-!
# Runs without input

An execution that exits without having asked for input does the same on whatever
channel it runs. So it can be followed on a transcript, where its output is what the
channel was given to write, and it reads the same cells there.
-/

namespace TernarySynth.Proofs.QuietRun

open TritWord MemoryImage TernarySynth.Cycle Transcript ImageRun
open PhaseEffect LateDecision CellReads ImageReplay

/-- The byte of a call that writes one. -/
def byteOf : ChannelCall → Option UInt8
  | .output byte => some byte
  | .input => none

/-- The bytes that were written by recorded calls, the first of them first. -/
def written (record : List ChannelCall) : List UInt8 :=
  (record.filterMap byteOf).reverse

/-- A machine on a transcript exits after this number of phases, with this output. -/
inductive Ends {M : Type} [Memory M] (lenient : Bool) (output : List UInt8) :
    Nat → Machine M Transcript → Prop where
  /-- The next phase exits. -/
  | now {machine : Machine M Transcript} (exits : (step lenient machine).1 = .completed .exited)
      (printed : machine.channel.output = output) : Ends lenient output 0 machine
  /-- The next phase completes, and the machine exits later. -/
  | later {machine next : Machine M Transcript} {n : Nat}
      (runs : step lenient machine = (.completed .running, next))
      (ends : Ends lenient output n next) : Ends lenient output (n + 1) machine

section Phases

variable {M P : Type} [Memory M] [Channel P] {lenient : Bool} {status : Status}

/-- A machine whose recorded output has gone to a transcript instead, without any
input. -/
def silent (machine : Machine M (Recorded P)) : Machine M Transcript :=
  ⟨machine.registers, machine.memory, .withoutInput (written machine.channel.record)⟩

/-- An effect makes one call more or none. -/
theorem perform_record (machine : Machine M (Recorded P)) (effect : Effect) :
    machine.channel.record <:+ (perform machine effect).2.channel.record := by
  cases effect with
  | emit byte registers =>
    rw [perform, writeByte_eq]
    rcases ha : Channel.output machine.channel byte with ⟨answer, channel⟩
    cases ha
    cases (Channel.output machine.channel.channel byte).1 <;> exact List.suffix_cons _ _
  | take registers =>
    rw [perform, readValue_eq]
    rcases ha : Channel.input machine.channel with ⟨answer, channel⟩
    cases ha
    cases (Channel.input machine.channel.channel).1 <;> exact List.suffix_cons _ _
  | _ => exact List.suffix_refl _

/-- An effect that completes without asking for input completes on a transcript
too. -/
theorem perform_silent {machine : Machine M (Recorded P)} {effect : Effect}
    (hc : (perform machine effect).1 = .completed status)
    (quiet : .input ∉ (perform machine effect).2.channel.record) :
    perform (silent machine) effect = (.completed status, silent (perform machine effect).2) := by
  cases effect with
  | wait address => cases hc
  | refuse fault => cases hc
  | overflow => cases hc
  | halt =>
    cases hc
    rfl
  | move registers =>
    cases hc
    rfl
  | store address value registers =>
    cases hc
    rfl
  | emit byte registers =>
    obtain ⟨before, memory, ⟨channel, record⟩⟩ := machine
    simp only [perform, writeByte_eq, Channel.output] at hc quiet ⊢
    rcases ha : Channel.output channel byte with ⟨answer, after⟩
    rw [ha] at hc
    cases answer with
    | error fault => cases hc
    | ok answer =>
      cases hc
      simp only [silent, written, List.filterMap_cons, byteOf, List.reverse_cons]
      rfl
  | take registers =>
    obtain ⟨before, memory, ⟨channel, record⟩⟩ := machine
    simp only [perform, readValue_eq, Channel.input] at quiet
    rcases ha : Channel.input channel with ⟨answer, after⟩
    rw [ha] at quiet
    cases answer <;> exact absurd List.mem_cons_self quiet

/-- So does a phase. -/
theorem step_silent {machine : Machine M (Recorded P)}
    (hc : (step lenient machine).1 = .completed status)
    (quiet : .input ∉ (step lenient machine).2.channel.record) :
    step lenient (silent machine) = (.completed status, silent (step lenient machine).2) := by
  rw [step_eq_perform] at hc quiet ⊢
  rw [step_eq_perform]
  exact perform_silent hc quiet

/-- What a phase reads does not depend on its channel. -/
theorem readsCell_silent {machine : Machine M (Recorded P)} {a : Word} :
    ReadsCell lenient (silent machine) a ↔ ReadsCell lenient machine a := by
  rw [readsCell_iff, readsCell_iff]
  rfl

/-- A machine on a transcript takes nothing back of what it has written, and adds one byte
at most. -/
theorem perform_output (machine : Machine M Transcript) (effect : Effect) :
    (perform machine effect).2.channel.output = machine.channel.output ∨
      ∃ byte, (perform machine effect).2.channel.output = machine.channel.output ++ [byte] := by
  obtain ⟨registers, memory, ⟨output, input⟩⟩ := machine
  cases effect with
  | emit byte registers => exact .inr ⟨byte, rfl⟩
  | take registers =>
    cases input with
    | none => exact .inl rfl
    | some words => cases words <;> exact .inl rfl
  | _ => exact .inl rfl

/-- So does a phase. -/
theorem step_output (lenient : Bool) (machine : Machine M Transcript) :
    (step lenient machine).2.channel.output = machine.channel.output ∨
      ∃ byte, (step lenient machine).2.channel.output = machine.channel.output ++ [byte] := by
  rw [step_eq_perform]
  exact perform_output machine _

/-- What has been written before a phase is the beginning of what has been written after
it. -/
theorem step_output_prefix (lenient : Bool) (machine : Machine M Transcript) :
    machine.channel.output <+: (step lenient machine).2.channel.output := by
  rcases step_output lenient machine with hsame | ⟨byte, hmore⟩
  · exact ⟨[], by rw [List.append_nil, hsame]⟩
  · exact ⟨[byte], hmore.symm⟩

/-- So its output is always the beginning of the output with which it exits. -/
theorem Ends.output_prefix {machine : Machine M Transcript} {output : List UInt8} {n : Nat}
    (h : Ends lenient output n machine) : machine.channel.output <+: output := by
  induction h with
  | now exits printed => exact ⟨[], by rw [List.append_nil, printed]⟩
  | @later machine next n runs ends ih =>
    refine List.IsPrefix.trans ?_ ih
    have hstep := step_output_prefix lenient machine
    rwa [runs] at hstep

end Phases

section Runs

variable {P : Type} [Channel P] {lenient : Bool} {limit phases : Nat} {execution : Execution}
variable {machine : Machine Image (Recorded P)} {last : Recorded P}

/-- An execution that exits goes on after a phase that completes, or it exits with
it. -/
theorem run_exited
    (h : (executionOf lenient phases machine).run limit machine.channel =
      (.exited, execution, last)) :
    ∃ fewer, limit = fewer + 1 ∧
      ((∃ next, step lenient machine = (.completed .running, next) ∧
        (executionOf lenient (phases + 1) next).run fewer next.channel =
          (.exited, execution, last)) ∨
      ((step lenient machine).1 = .completed .exited ∧
        (step lenient machine).2.channel = last)) := by
  cases limit with
  | zero => cases h
  | succ fewer =>
    refine ⟨fewer, rfl, ?_⟩
    rcases hs : step lenient machine with ⟨outcome, next⟩
    cases outcome with
    | completed status =>
      rw [Execution.run, executionStep_eq hs] at h
      cases status with
      | running => exact .inl ⟨next, rfl, h⟩
      | exited =>
        cases h
        exact .inr ⟨rfl, rfl⟩
    | needsDecision address =>
      obtain ⟨registers, image, channel⟩ := machine
      simp only [Execution.run, executionOf, Execution.step, hs] at h
      cases h
    | failed fault =>
      obtain ⟨registers, image, channel⟩ := machine
      simp only [Execution.run, executionOf, Execution.step, hs] at h
      cases h
    | overflowed =>
      obtain ⟨registers, image, channel⟩ := machine
      simp only [Execution.run, executionOf, Execution.step, hs] at h
      cases h

/-- The calls that were recorded stay recorded. -/
theorem run_record
    (h : (executionOf lenient phases machine).run limit machine.channel =
      (.exited, execution, last)) : machine.channel.record <:+ last.record := by
  induction limit generalizing machine phases with
  | zero => cases h
  | succ limit ih =>
    have hstep := perform_record machine
      (effect lenient machine.registers (Memory.read machine.memory))
    rw [← step_eq_perform] at hstep
    obtain ⟨fewer, hlimit, ⟨next, hruns, hrest⟩ | ⟨-, hlast⟩⟩ := run_exited h
    · cases hlimit
      rw [hruns] at hstep
      exact hstep.trans (ih hrest)
    · rwa [hlast] at hstep

/-- An execution that exits without having asked for input exits on a transcript,
with what it has written as the output, and it reads the same cells there. -/
theorem ends_of_run
    (h : (executionOf lenient phases machine).run limit machine.channel =
      (.exited, execution, last)) (quiet : .input ∉ last.record) :
    ∃ n < limit, Ends lenient (written last.record) n (silent machine) ∧
      ∀ a, Reads lenient a (silent machine) ↔ Reads lenient a machine := by
  induction limit generalizing machine phases with
  | zero => cases h
  | succ limit ih =>
    obtain ⟨fewer, hlimit, ⟨next, hruns, hrest⟩ | ⟨hexits, hlast⟩⟩ := run_exited h
    · cases hlimit
      have hquiet : .input ∉ next.channel.record := fun hm => quiet ((run_record hrest).subset hm)
      have hsilent := step_silent (congrArg Prod.fst hruns) (by rwa [hruns])
      rw [hruns] at hsilent
      obtain ⟨n, hlt, hends, hreads⟩ := ih hrest
      refine ⟨n + 1, Nat.succ_lt_succ hlt, .later hsilent hends, fun a => ?_⟩
      rw [reads_iff_of_runs hsilent, reads_iff_of_runs hruns, readsCell_silent, hreads]
    · have hsilent := step_silent hexits (by rwa [hlast])
      have hsame : (step lenient machine).2 = machine := by
        rw [step_eq_perform] at hexits ⊢
        exact (perform_exited hexits).2
      refine ⟨0, Nat.succ_pos limit, .now (congrArg Prod.fst hsilent) ?_, fun a => ?_⟩
      · rw [← hlast, hsame]
        rfl
      · rw [reads_iff_of_stops (stops_of_exits (congrArg Prod.fst hsilent)),
          reads_iff_of_stops (stops_of_exits hexits), readsCell_silent]

end Runs

end TernarySynth.Proofs.QuietRun
