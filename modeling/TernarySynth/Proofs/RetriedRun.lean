import TernarySynth.Proofs.LoadedText
import TernarySynth.Proofs.StreamTraffic

/-!
# Runs that are retried

A phase that cannot read or write fails and leaves the execution as it was, so
the caller may call `step` again. `attempts` is such a caller, who goes on
whatever the answers are. Beside it runs the same execution on streams that
never fail: its reader has no failing events and its sink takes everything.
The two stay in tune. A call that the streams fail changes nothing that the
other run could notice, and every other call does to both of them the same.
What goes through the streams on the way is what the completed phases write
and read, once and in order.
-/

namespace TernarySynth.Proofs.RetriedRun

open TritWord MemoryImage TernarySynth.Cycle ByteStream StreamError ImageRun SourceText
open PhaseEffect LoadedText StreamTraffic

section Callers

variable {P : Type} [Channel P]

/-- Call `step` that many times, whatever it answers. -/
def attempts : Nat → Execution → P → List StepEnd × Execution × P
  | 0, execution, channel => ([], execution, channel)
  | calls + 1, execution, channel =>
    match execution.step channel with
    | (answer, execution, channel) =>
      match attempts calls execution channel with
      | (answers, execution, channel) => (answer :: answers, execution, channel)

/-- The phases that these calls complete, in order. -/
def passages : Nat → Execution → P → List Passage
  | 0, _, _ => []
  | calls + 1, execution, channel =>
    match execution.step channel with
    | (.completed _, after, channel) => ⟨execution, after⟩ :: passages calls after channel
    | (_, after, channel) => passages calls after channel

variable {execution after : Execution} {channel channelAfter : P} {answer : StepEnd}

/-- The first of several calls. -/
theorem attempts_succ (h : execution.step channel = (answer, after, channelAfter)) (calls : Nat) :
    attempts (calls + 1) execution channel =
      (answer :: (attempts calls after channelAfter).1,
        (attempts calls after channelAfter).2) := by
  rw [attempts, h]

/-- It completes a phase, -/
theorem passages_of_completed {status : Status}
    (h : execution.step channel = (.completed status, after, channelAfter)) (calls : Nat) :
    passages (calls + 1) execution channel =
      ⟨execution, after⟩ :: passages calls after channelAfter := by
  rw [passages, h]

/-- or it does not. -/
theorem passages_of_other (h : execution.step channel = (answer, after, channelAfter))
    (stuck : isCompleted answer = false) (calls : Nat) :
    passages (calls + 1) execution channel = passages calls after channelAfter := by
  cases answer with
  | completed status => cases stuck
  | failed fault => rw [passages, h]
  | overflowed => rw [passages, h]

end Callers

section Sinks

/-- A scripted sink that never fails. -/
structure Unfailing (sink : ScriptedSink) : Prop where
  /-- No write has been told how to end. -/
  writes : sink.writeScript = []
  /-- Writes succeed by themselves. -/
  fault : sink.writeFault = none
  /-- No flush has been told how to end. -/
  flushes : sink.flushScript = []

/-- A sink that never fails accepts a byte and remains so. -/
theorem Unfailing.writeByte {sink : ScriptedSink} (h : Unfailing sink) (byte : UInt8) :
    (ByteSink.writeByte sink byte).1 = .ok () ∧
      Unfailing (ByteSink.writeByte sink byte).2 := by
  obtain ⟨bytes, flushes, freeWrites, script, fault, freeFlushes, flushScript⟩ := sink
  obtain ⟨rfl, rfl, rfl⟩ := h
  cases freeWrites <;> exact ⟨rfl, rfl, rfl, rfl⟩

/-- A sink that never fails can be flushed and remains so. -/
theorem Unfailing.flush {sink : ScriptedSink} (h : Unfailing sink) :
    (ByteSink.flush sink).1 = .ok () ∧ Unfailing (ByteSink.flush sink).2 := by
  obtain ⟨bytes, flushes, freeWrites, script, fault, freeFlushes, flushScript⟩ := sink
  obtain ⟨rfl, rfl, rfl⟩ := h
  cases freeFlushes <;> exact ⟨rfl, rfl, rfl, rfl⟩

end Sinks

section Channels

variable {S : Type} [ByteSink S] {taken : S → List UInt8}
variable {tried triedAfter : StreamChannel S} {smooth : StreamChannel ScriptedSink}

/-- A channel whose streams never fail has as much left to read as one whose streams
may fail, and has taken the same bytes. -/
structure InTune (taken : S → List UInt8) (tried : StreamChannel S)
    (smooth : StreamChannel ScriptedSink) : Prop where
  /-- What is left to read, without the failing events. -/
  reader : smooth.reader = tried.reader.filter delivers
  /-- What has been written. -/
  bytes : smooth.sink.bytes.toList = taken tried.sink
  /-- The streams of the first channel do not fail. -/
  unfailing : Unfailing smooth.sink

omit [ByteSink S] in
/-- At the start the failing events are left out and the sink is replaced by one that
has taken the same bytes. -/
theorem InTune.start (taken : S → List UInt8) (reader : List ReadEvent) (sink : S) :
    InTune taken ⟨reader, sink⟩
      ⟨reader.filter delivers, { ScriptedSink.reliable with bytes := (taken sink).toArray }⟩ :=
  ⟨rfl, rfl, rfl, rfl, rfl⟩

/-- A byte is refused by a failing stream only, and nothing has changed then; else both
channels take it. -/
theorem InTune.output (faithful : Faithful taken) (h : InTune taken tried smooth) (byte : UInt8) :
    (∃ error triedAfter, Channel.output tried byte = (.error (.io error), triedAfter) ∧
        InTune taken triedAfter smooth) ∨
      ∃ triedAfter smoothAfter, Channel.output tried byte = (.ok (), triedAfter) ∧
        Channel.output smooth byte = (.ok (), smoothAfter) ∧ InTune taken triedAfter smoothAfter := by
  obtain ⟨reader, sink⟩ := tried
  obtain ⟨events, device⟩ := smooth
  obtain ⟨hreader, hbytes, hdevice⟩ := h
  simp only [Channel.output, StreamChannel.output]
  cases hw : (ByteSink.writeByte sink byte).1 with
  | error error =>
    have hkept := faithful.refuses sink byte error hw
    exact .inl ⟨error, _, rfl, hreader, hbytes.trans hkept.symm, hdevice⟩
  | ok =>
    obtain ⟨haccepts, hstays⟩ := hdevice.writeByte byte
    have hnew := faithful.accepts sink byte hw
    have hsame := scripted_faithful.accepts device byte haccepts
    rw [haccepts]
    refine .inr ⟨_, _, rfl, rfl, hreader, ?_, hstays⟩
    rw [hsame, hnew, ← hbytes]

/-- An input fails by a failing stream only, in the flush before it or in the read, and
nothing has been read then; else both channels read the same word. -/
theorem InTune.input (faithful : Faithful taken) (h : InTune taken tried smooth) :
    (∃ error triedAfter, Channel.input tried = (.error (.io error), triedAfter) ∧
        InTune taken triedAfter smooth) ∨
      ∃ value triedAfter smoothAfter, Channel.input tried = (.ok value, triedAfter) ∧
        Channel.input smooth = (.ok value, smoothAfter) ∧ InTune taken triedAfter smoothAfter := by
  obtain ⟨reader, sink⟩ := tried
  obtain ⟨events, device⟩ := smooth
  obtain ⟨hreader, hbytes, hdevice⟩ := h
  obtain ⟨hflushes, hstays⟩ := hdevice.flush
  have hafter := (faithful.flushes sink).symm
  have hsame := scripted_faithful.flushes device
  simp only [Channel.input, StreamChannel.input, StreamChannel.flush, hflushes]
  cases hf : (ByteSink.flush sink).1 with
  | error error => exact .inl ⟨error, _, rfl, hreader, hbytes.trans hafter, hdevice⟩
  | ok =>
    simp only [StreamChannel.report]
    rcases hr : readByte reader with ⟨error | byte, rest⟩
    · have hskipped := readByte_failed hr
      exact .inl ⟨error, _, rfl, hreader.trans hskipped, hbytes.trans hafter, hdevice⟩
    · have hdelivered := readByte_delivered hr
      rw [← (show events = _ from hreader)] at hdelivered
      rw [hdelivered]
      exact .inr ⟨StreamChannel.wordOf byte, _, _, rfl, rfl, rfl,
        hsame.trans (hbytes.trans hafter), hstays⟩

end Channels

section Retrying

variable {S : Type} [ByteSink S] {taken : S → List UInt8}
variable {tried : StreamChannel S} {smooth : StreamChannel ScriptedSink}

/-- Every call is failed by the streams and leaves the execution as it was, or does the
same to both runs; one that does not complete for another reason leaves everything as
it was. -/
theorem step_inTune (faithful : Faithful taken) (h : InTune taken tried smooth)
    (execution : Execution) :
    (∃ error triedAfter, execution.step tried = (.failed (.io error), execution, triedAfter) ∧
      InTune taken triedAfter smooth) ∨
    (∃ answer, isCompleted answer = false ∧ execution.step tried = (answer, execution, tried) ∧
      execution.step smooth = (answer, execution, smooth)) ∨
    ∃ status after triedAfter smoothAfter,
      execution.step tried = (.completed status, after, triedAfter) ∧
      execution.step smooth = (.completed status, after, smoothAfter) ∧
      InTune taken triedAfter smoothAfter := by
  by_cases hout : nextInstruction execution = some .output
  · rw [step_of_output hout, step_of_output hout]
    rcases h.output faithful (UInt8.ofNat (execution.registers.a % 256)) with
      ⟨error, _, hfails, hkept⟩ | ⟨_, _, htried, hsmooth, hboth⟩
    · rw [hfails]
      exact .inl ⟨error, _, rfl, hkept⟩
    · rw [htried, hsmooth]
      exact .inr (.inr ⟨_, _, _, _, rfl, rfl, hboth⟩)
  by_cases hin : nextInstruction execution = some .input
  · rw [step_of_input hin, step_of_input hin]
    rcases h.input faithful with ⟨error, _, hfails, hkept⟩ | ⟨_, _, _, htried, hsmooth, hboth⟩
    · rw [hfails]
      exact .inl ⟨error, _, rfl, hkept⟩
    · rw [htried, hsmooth]
      exact .inr (.inr ⟨_, _, _, _, rfl, rfl, hboth⟩)
  · obtain ⟨answer, after, hstays, hstep⟩ := step_of_mute (nextEffect_mute hout hin)
    rw [hstep tried, hstep smooth]
    cases answer with
    | completed status => exact .inr (.inr ⟨status, after, _, _, rfl, rfl, h⟩)
    | failed fault =>
      obtain rfl := hstays rfl
      exact .inr (.inl ⟨_, rfl, rfl, rfl⟩)
    | overflowed =>
      obtain rfl := hstays rfl
      exact .inr (.inl ⟨_, rfl, rfl, rfl⟩)

/-- However often the caller has called, the run on streams that never fail has come to
the same execution after as many calls as were completed, with the same answers and by
the same phases, and the two channels are in tune. -/
theorem attempts_inTune (faithful : Faithful taken) (h : InTune taken tried smooth)
    (execution : Execution) (calls : Nat) :
    let retried := attempts calls execution tried
    let completed := retried.1.filter isCompleted
    ∃ smoothAfter,
      attempts completed.length execution smooth = (completed, retried.2.1, smoothAfter) ∧
      passages completed.length execution smooth = passages calls execution tried ∧
      InTune taken retried.2.2 smoothAfter := by
  induction calls generalizing execution tried smooth with
  | zero => exact ⟨smooth, rfl, rfl, h⟩
  | succ calls ih =>
    rcases step_inTune faithful h execution with
      ⟨error, triedAfter, hfails, hkept⟩ | ⟨answer, hstuck, htried, -⟩ |
        ⟨status, after, triedAfter, smoothAfter, htried, hsmooth, hboth⟩
    · rw [attempts_succ hfails, passages_of_other hfails rfl]
      exact ih hkept execution
    · rw [attempts_succ htried, passages_of_other htried hstuck]
      simp only [List.filter_cons, hstuck]
      exact ih h execution
    · rw [attempts_succ htried, passages_of_completed htried]
      obtain ⟨last, hrun, hphases, htuned⟩ := ih hboth after
      refine ⟨last, ?_, ?_, htuned⟩
      · simp only [List.filter_cons, isCompleted, if_true, List.length_cons]
        rw [attempts_succ hsmooth, hrun]
      · simp only [List.filter_cons, isCompleted, if_true, List.length_cons]
        rw [passages_of_completed hsmooth, hphases]

/-- However often the caller has called, what has gone through the streams is what the
completed phases have written and read. -/
theorem attempts_carries (faithful : Faithful taken) (execution : Execution)
    (channel : StreamChannel S) (calls : Nat) :
    let passed := passages calls execution channel
    passed.length = ((attempts calls execution channel).1.filter isCompleted).length ∧
      Carries taken channel (attempts calls execution channel).2.2
        (passed.flatMap Passage.written) (passed.flatMap Passage.entered) := by
  induction calls generalizing execution channel with
  | zero => exact ⟨rfl, carries_nothing rfl rfl⟩
  | succ calls ih =>
    rcases step_carries faithful execution channel with
      ⟨answer, after, hstuck, hstep, hnothing⟩ | ⟨status, next, after, hstep, hpassage⟩
    · rw [attempts_succ hstep, passages_of_other hstep hstuck]
      obtain ⟨hlength, hcarries⟩ := ih execution after
      simp only [List.filter_cons, hstuck]
      exact ⟨hlength, hnothing.trans hcarries⟩
    · rw [attempts_succ hstep, passages_of_completed hstep]
      obtain ⟨hlength, hcarries⟩ := ih next after
      simp only [List.filter_cons, isCompleted, if_true, List.length_cons, List.flatMap_cons]
      exact ⟨congrArg Nat.succ hlength, hpassage.trans hcarries⟩

/-- Failures of the streams are invisible to a caller who goes on calling. After any
number of calls, on any streams, the execution (registers, image and number of phases),
the bytes that the sink has taken and what is left to read are those that the same
execution has after as many calls as were completed if its reader has no failing events
and its sink never fails. All of those calls complete, with the same answers and by the
same phases. The sink has taken the bytes that the outputs among them write, behind those
before, and the inputs among them have read the words that the reader delivers, from the
first one on: each once and in order. The next call answers what the next one of the
retried run does, unless that is failed by the streams once more. -/
theorem failures_transparent (faithful : Faithful taken) (image : Image) (lenient : Bool)
    (reader : List ReadEvent) (sink : S) (calls : Nat) :
    let start := Execution.ofImage lenient image
    let channel := StreamChannel.mk reader sink
    let retried := attempts calls start channel
    let completed := retried.1.filter isCompleted
    let passed := passages calls start channel
    let unfailing := StreamChannel.mk (reader.filter delivers)
      { ScriptedSink.reliable with bytes := (taken sink).toArray }
    let smooth := attempts completed.length start unfailing
    smooth.1 = completed ∧ smooth.2.1 = retried.2.1 ∧
      passages completed.length start unfailing = passed ∧ passed.length = completed.length ∧
      smooth.2.2.sink.bytes.toList = taken retried.2.2.sink ∧
      smooth.2.2.reader = retried.2.2.reader.filter delivers ∧
      Carries taken channel retried.2.2
        (passed.flatMap Passage.written) (passed.flatMap Passage.entered) ∧
      ((∃ error, (retried.2.1.step retried.2.2).1 = .failed (.io error)) ∨
        (smooth.2.1.step smooth.2.2).1 = (retried.2.1.step retried.2.2).1) := by
  intro start channel retried completed passed unfailing smooth
  obtain ⟨last, hrun, hphases, htuned⟩ :=
    attempts_inTune faithful (InTune.start taken reader sink) start calls
  obtain ⟨hlength, hcarries⟩ := attempts_carries faithful start channel calls
  have hsmooth : smooth = (completed, retried.2.1, last) := hrun
  rw [hsmooth]
  refine ⟨rfl, rfl, hphases, hlength, htuned.bytes, htuned.reader, hcarries, ?_⟩
  rcases step_inTune faithful htuned retried.2.1 with
    ⟨error, _, hfails, -⟩ | ⟨answer, -, htried, hlast⟩ | ⟨status, _, _, _, htried, hlast, -⟩
  · exact .inl ⟨error, congrArg Prod.fst hfails⟩
  · exact .inr ((congrArg Prod.fst hlast).trans (congrArg Prod.fst htried).symm)
  · exact .inr ((congrArg Prod.fst hlast).trans (congrArg Prod.fst htried).symm)

/-- An image with an output in its first cell and an input in the second is called six times.
The write is refused once; the flush before the read fails once, and so does the read. -/
theorem attempts_of_echo {image : Image} (hout : image.read 0 = some 99)
    (hin : image.read 1 = some 116) :
    let sink : ScriptedSink :=
      { ScriptedSink.reliable with
        writeScript := [.refused .brokenPipe], flushScript := [some .noSpace] }
    let channel := StreamChannel.mk [.interrupted, .refused .timedOut, .byte 7] sink
    let start := Execution.ofImage false image
    let last : Execution := ⟨⟨7, 1, 1, .advance⟩, image.write 0 86, false, 3⟩
    attempts 6 start channel =
        ([.failed (.io .brokenPipe), .completed .running, .completed .running,
          .failed (.io .noSpace), .failed (.io .timedOut), .completed .running], last,
          ⟨[], { ScriptedSink.reliable with bytes := #[0], flushes := 3 }⟩) ∧
      (passages 6 start channel).flatMap Passage.written = [0] ∧
      (passages 6 start channel).flatMap Passage.entered = [7] := by
  intro sink channel start last
  let written : Execution := ⟨⟨0, 0, 0, .advance⟩, image, false, 1⟩
  let moved : Execution := ⟨⟨0, 1, 1, .fetch⟩, image.write 0 86, false, 2⟩
  have hprints : nextInstruction start = some .output := by
    simp only [nextInstruction, start, Execution.ofImage, Registers.initial, hout]
    rfl
  have hreads : nextInstruction moved = some .input := by
    simp only [nextInstruction, moved, Image.read_write, hin]
    rfl
  have hstore : effect false ⟨0, 0, 0, .advance⟩ (Memory.read image) =
      .store 0 86 ⟨0, 1, 1, .fetch⟩ := by
    have hcell : Memory.read image 0 = some 99 := hout
    simp only [effect, advanceEffect, needing, hcell]
    rfl
  let reader : List ReadEvent := [.interrupted, .refused .timedOut, .byte 7]
  let patient : ScriptedSink := { ScriptedSink.reliable with flushScript := [some .noSpace] }
  let printed : ScriptedSink := { patient with bytes := #[0] }
  let flushed (count : Nat) : ScriptedSink :=
    { ScriptedSink.reliable with bytes := #[0], flushes := count }
  have hrefused : start.step channel = (.failed (.io .brokenPipe), start, ⟨reader, patient⟩) :=
    step_of_output hprints _
  have hwritten : start.step (StreamChannel.mk reader patient) =
      (.completed .running, written, ⟨reader, printed⟩) := step_of_output hprints _
  have hmoved : written.step (StreamChannel.mk reader printed) =
      (.completed .running, moved, ⟨reader, printed⟩) := by
    rw [Execution.step, step_eq_perform, hstore]
    rfl
  have hfull : moved.step (StreamChannel.mk reader printed) =
      (.failed (.io .noSpace), moved, ⟨reader, flushed 1⟩) := step_of_input hreads _
  have htime : moved.step (StreamChannel.mk reader (flushed 1)) =
      (.failed (.io .timedOut), moved, ⟨[.byte 7], flushed 2⟩) := step_of_input hreads _
  have hseven : moved.step (StreamChannel.mk [.byte 7] (flushed 2)) =
      (.completed .running, last, ⟨[], flushed 3⟩) := step_of_input hreads _
  have hpassages : passages 6 start channel =
      [⟨start, written⟩, ⟨written, moved⟩, ⟨moved, last⟩] := by
    rw [passages_of_other hrefused rfl, passages_of_completed hwritten,
      passages_of_completed hmoved, passages_of_other hfull rfl, passages_of_other htime rfl,
      passages_of_completed hseven]
    rfl
  have hnone : nextInstruction written = none := rfl
  refine ⟨?_, ?_, ?_⟩
  · rw [attempts_succ hrefused, attempts_succ hwritten, attempts_succ hmoved, attempts_succ hfull,
      attempts_succ htime, attempts_succ hseven]
    rfl
  · rw [hpassages]
    simp only [List.flatMap_cons, List.flatMap_nil, Passage.written, hprints, hreads, hnone]
    rfl
  · rw [hpassages]
    simp only [List.flatMap_cons, List.flatMap_nil, Passage.entered, hprints, hreads, hnone]
    rfl

/-- A program that writes a byte and then reads one, on streams that refuse the write, the
flush and the read once each: six calls complete three phases. The sink has taken the byte
once and the program has read the 7, as on streams that hold only the 7 and do not fail. -/
theorem failures_transparent_of_echo :
    let sink : ScriptedSink :=
      { ScriptedSink.reliable with
        writeScript := [.refused .brokenPipe], flushScript := [some .noSpace] }
    let channel := StreamChannel.mk [.interrupted, .refused .timedOut, .byte 7] sink
    (Faithful fun sink : ScriptedSink => sink.bytes.toList) ∧
    ∃ image, SourceText.load ⟨[99, 116]⟩ = .ok image ∧
      let retried := attempts 6 (Execution.ofImage false image) channel
      let smooth := attempts 3 (Execution.ofImage false image)
        (StreamChannel.mk [.byte 7] ScriptedSink.reliable)
      retried.1 = [.failed (.io .brokenPipe), .completed .running, .completed .running,
        .failed (.io .noSpace), .failed (.io .timedOut), .completed .running] ∧
      smooth.1 = [.completed .running, .completed .running, .completed .running] ∧
      smooth.2.1 = retried.2.1 ∧ retried.2.1.registers.a = 7 ∧ retried.2.1.phases = 3 ∧
      smooth.2.2.sink.bytes.toList = [0] ∧
      Carries (fun sink : ScriptedSink => sink.bytes.toList) channel retried.2.2 [0] [7] := by
  intro sink channel
  obtain ⟨image, loads⟩ : ∃ image, SourceText.load ⟨[99, 116]⟩ = .ok image := ⟨_, rfl⟩
  have hout : (SourceText.mk [99, 116]).cells[0]? = some 99 := rfl
  have hin : (SourceText.mk [99, 116]).cells[1]? = some 116 := rfl
  obtain ⟨hretried, hbytes, hwords⟩ :=
    attempts_of_echo (read_of_load loads hout).1 (read_of_load loads hin).1
  obtain ⟨hanswers, hafter, -, -, hsink, -, hcarries, -⟩ :=
    failures_transparent scripted_faithful image false channel.reader sink 6
  rw [hbytes, hwords] at hcarries
  rw [hretried] at hanswers hafter hsink hcarries
  refine ⟨scripted_faithful, image, loads, ?_⟩
  rw [hretried]
  exact ⟨rfl, hanswers, hafter, rfl, rfl, hsink, hcarries⟩

end Retrying

end TernarySynth.Proofs.RetriedRun
