import TernarySynth.Proofs.QuietRun

/-!
# Runs of a transcript on streams

A machine that exits on a transcript without input exits on streams as well, whatever
could be read from them: the sink takes the output, the calls that are recorded are the
bytes of the output, and the cells that are read are the same. This is the way back from a
run on a transcript to a run without input.
-/

namespace TernarySynth.Proofs.StreamedRun

open TritWord MemoryImage TernarySynth.Cycle Transcript ByteStream ImageRun
open PhaseEffect LateDecision CellReads ImageReplay QuietRun

/-- The calls that write these bytes, the latest first. -/
def callsOf (output : List UInt8) : List ChannelCall := output.reverse.map .output

/-- What such calls have written. -/
theorem written_callsOf (output : List UInt8) : written (callsOf output) = output := by
  have hbytes : byteOf ∘ ChannelCall.output = some := rfl
  rw [written, callsOf, List.filterMap_map, hbytes, List.filterMap_some, List.reverse_reverse]

/-- They ask for no input. -/
theorem quiet_callsOf (output : List UInt8) : .input ∉ callsOf output := by
  intro hm
  obtain ⟨byte, -, heq⟩ := List.mem_map.mp hm
  cases heq

/-- One byte more is one call more. -/
theorem callsOf_append (output : List UInt8) (byte : UInt8) :
    callsOf (output ++ [byte]) = .output byte :: callsOf output := by
  rw [callsOf, List.reverse_append]
  rfl

section Phases

variable {M S : Type} [Memory M] [ByteSink S] {sink : S} {lenient : Bool}
variable {machine : Machine M Transcript} {status : Status}

/-- A machine whose output has gone to a sink instead of a transcript, call by call. -/
def streamed (reader : List ReadEvent) (sink : S) (machine : Machine M Transcript) :
    Machine M (Recorded (StreamChannel S)) :=
  ⟨machine.registers, machine.memory,
    ⟨⟨reader, afterBytes sink machine.channel.output⟩, callsOf machine.channel.output⟩⟩

/-- An effect that completes without an input completes on streams too. -/
theorem perform_streamed (reader : List ReadEvent) (tireless : Tireless sink)
    (inputless : machine.channel.input = none) {effect : Effect}
    (hc : (perform machine effect).1 = .completed status) :
    perform (streamed reader sink machine) effect =
      (.completed status, streamed reader sink (perform machine effect).2) := by
  cases effect with
  | wait address => cases hc
  | refuse fault => cases hc
  | overflow => cases hc
  | halt =>
    cases hc
    rfl
  | move registers =>
    cases hc
    rfl
  | store address value registers =>
    cases hc
    rfl
  | emit byte registers =>
    cases hc
    have htaken := output_tireless tireless reader machine.channel.output byte
    have hrecord := callsOf_append machine.channel.output byte
    simp only [perform, writeByte_eq, streamed, Channel.output, Transcript.write, hrecord]
    simp only [Channel.output] at htaken
    rw [htaken]
  | take registers =>
    obtain ⟨before, memory, output, input⟩ := machine
    dsimp only at inputless
    subst inputless
    cases hc

/-- So does a phase, and its channel remains without input. -/
theorem step_streamed (reader : List ReadEvent) (tireless : Tireless sink)
    (inputless : machine.channel.input = none)
    (hc : (step lenient machine).1 = .completed status) :
    step lenient (streamed reader sink machine) =
        (.completed status, streamed reader sink (step lenient machine).2) ∧
      (step lenient machine).2.channel.input = none := by
  have hkept := (step_onStream reader tireless id inputless hc).2
  refine ⟨?_, hkept⟩
  rw [step_eq_perform] at hc ⊢
  rw [step_eq_perform]
  exact perform_streamed reader tireless inputless hc

/-- What a phase reads does not depend on its channel. -/
theorem readsCell_streamed (reader : List ReadEvent) (sink : S) (a : Word) :
    ReadsCell lenient (streamed reader sink machine) a ↔ ReadsCell lenient machine a := by
  rw [readsCell_iff, readsCell_iff]
  rfl

end Phases

section Runs

variable {S : Type} [ByteSink S] {sink : S} {lenient : Bool} {output : List UInt8} {n : Nat}
variable {machine : Machine Image Transcript}

/-- A machine that exits on a transcript exits on streams. The calls are those of its
output, and it reads the same cells. -/
theorem run_of_ends (reader : List ReadEvent) (tireless : Tireless sink)
    (h : Ends lenient output n machine) (inputless : machine.channel.input = none) (phases : Nat) :
    (∃ execution, (executionOf lenient phases (streamed reader sink machine)).run (n + 1)
        (streamed reader sink machine).channel =
      (.exited, execution, ⟨⟨reader, afterBytes sink output⟩, callsOf output⟩)) ∧
    ∀ a, Reads lenient a (streamed reader sink machine) ↔ Reads lenient a machine := by
  induction h generalizing phases with
  | @now machine exits printed =>
    obtain ⟨hstep, -⟩ := step_streamed reader tireless inputless exits
    have hsame : (step lenient machine).2 = machine := by
      rw [step_eq_perform] at exits ⊢
      exact (perform_exited exits).2
    rw [hsame] at hstep
    have hexits := congrArg Prod.fst hstep
    refine ⟨⟨executionOf lenient (phases + 1) (streamed reader sink machine), ?_⟩, fun a => ?_⟩
    · rw [Execution.run, executionStep_eq hstep, ← printed]
      rfl
    · rw [reads_iff_of_stops (stops_of_exits hexits), reads_iff_of_stops (stops_of_exits exits),
        readsCell_streamed]
  | @later machine next n runs ends ih =>
    obtain ⟨hstep, hkept⟩ := step_streamed reader tireless inputless (congrArg Prod.fst runs)
    rw [runs] at hstep hkept
    obtain ⟨⟨execution, hrun⟩, hreads⟩ := ih hkept (phases + 1)
    refine ⟨⟨execution, ?_⟩, fun a => ?_⟩
    · rw [Execution.run, executionStep_eq hstep]
      exact hrun
    · rw [reads_iff_of_runs hstep, reads_iff_of_runs runs, readsCell_streamed, hreads]

end Runs

end TernarySynth.Proofs.StreamedRun
