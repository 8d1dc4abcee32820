import TernarySynth.InterpreterCommand
import TernarySynth.Proofs.ImageRange
import TernarySynth.Proofs.ImageReplay
import TernarySynth.Proofs.RetriedRun

/-!
# Strict and lenient runs

Leniency is asked for once in a phase, when the code cell is decoded. So a strict
execution and a lenient one of the same image stay in step until the strict one
fetches a printable cell that names no instruction. There it fails, and the lenient one
executes a no-op.
-/

namespace TernarySynth.Proofs.LenientRun

open TritWord CellCode MemoryImage TernarySynth.Cycle StreamError ByteStream ImageRun
open SourceText LogLine TernarySynth.Console InterpreterCommand
open CodeValues PhaseEffect ImageRange ImageReplay StreamTraffic RetriedRun LoadedText

/-- The same execution with printable cells as no-ops. -/
def relaxed (execution : Execution) : Execution := { execution with lenient := true }

section Steps

variable {P : Type} [Channel P]

/-- How a lenient execution passes a printable cell that names no instruction, where the
strict one fails. -/
structure Passes (execution : Execution) (channel : P) (address value : Word) : Prop where
  /-- The cell is the one that is fetched, and nothing else is wrong with it. -/
  unnamed : Unnamed execution.registers execution.image.read value
  /-- It is at this address. -/
  place : execution.registers.c = address
  /-- The strict execution fails and stays as it was. -/
  strict : execution.step channel = (.failed (.undecodable address value), execution, channel)
  /-- The lenient phase is the execution of a no-op. -/
  executes : Cycle.step true (Machine.mk execution.registers execution.image channel) =
    (Machine.mk execution.registers execution.image channel).execute .noOp
  /-- So it completes, and goes on to the advance phase with all else as it was. -/
  lenient : (relaxed execution).step channel =
    (.completed .running,
      ⟨{ execution.registers with phase := .advance }, execution.image, true,
        execution.phases + 1⟩,
      channel)

variable {execution : Execution}

/-- A printable cell without a name is passed. -/
theorem passes_of_unnamed (strict : execution.lenient = false) {value : Word}
    (h : Unnamed execution.registers execution.image.read value) (channel : P) :
    Passes execution channel execution.registers.c value := by
  obtain ⟨registers, image, lenient, phases⟩ := execution
  dsimp only at strict h
  subst strict
  have hread : Unnamed registers (Memory.read image) value := h
  refine ⟨h, rfl, ?_, ?_, ?_⟩
  · simp only [Execution.step, step_eq_perform, hread.strict, PhaseEffect.perform]
  · rw [step_eq_perform, execute_eq_perform]
    exact congrArg _ hread.lenient
  · simp only [relaxed, Execution.step, step_eq_perform, hread.lenient]
    rfl

/-- A lenient phase does what the strict one does, up to the flag, or it passes a cell
that the strict one fails at. -/
theorem step_relaxed (strict : execution.lenient = false) (channel : P) :
    (relaxed execution).step channel =
        ((execution.step channel).1, relaxed (execution.step channel).2.1,
          (execution.step channel).2.2) ∨
      ∃ address value, Passes execution channel address value := by
  rcases effect_lenient execution.registers (Memory.read execution.image) with
    he | ⟨value, unnamed⟩
  · obtain ⟨registers, image, lenient, phases⟩ := execution
    dsimp only at strict he
    subst strict
    left
    simp only [relaxed, Execution.step, step_eq_perform, he]
    split <;> rfl
  · exact .inr ⟨_, value, passes_of_unnamed strict unnamed channel⟩

/-- A step does not change the flag. -/
theorem step_keeps_strict (strict : execution.lenient = false) (channel : P) :
    (execution.step channel).2.1.lenient = false := by
  obtain ⟨registers, image, lenient, phases⟩ := execution
  dsimp only at strict
  subst strict
  simp only [Execution.step]
  split <;> rfl

/-- While the strict execution completes its phases, the lenient one completes the same
phases with the same effects. -/
theorem attempts_relaxed (strict : execution.lenient = false) (n : Nat) (channel : P)
    (completes : ∀ answer ∈ (attempts n execution channel).1, isCompleted answer = true) :
    attempts n (relaxed execution) channel =
        ((attempts n execution channel).1, relaxed (attempts n execution channel).2.1,
          (attempts n execution channel).2.2) ∧
      (attempts n execution channel).2.1.lenient = false := by
  induction n generalizing execution channel with
  | zero => exact ⟨rfl, strict⟩
  | succ n ih =>
    rcases hs : execution.step channel with ⟨answer, after, rest⟩
    rw [attempts_succ hs] at completes ⊢
    rw [List.forall_mem_cons] at completes
    obtain ⟨hanswer, hlater⟩ := completes
    have hstrict : after.lenient = false := by
      have hkeeps := step_keeps_strict strict channel
      rw [hs] at hkeeps
      exact hkeeps
    obtain ⟨hruns, hflag⟩ := ih hstrict rest hlater
    refine ⟨?_, hflag⟩
    rcases step_relaxed strict channel with hsame | ⟨address, value, passes⟩
    · rw [hs] at hsame
      rw [attempts_succ hsame, hruns]
    · cases hs.symm.trans passes.strict
      cases hanswer

/-- Unless the strict run ends at a printable cell, the lenient run ends the same way,
however long it is allowed to be. -/
theorem run_relaxed (strict : execution.lenient = false) (limit : Nat) (channel : P)
    (named : ∀ address value, isPrintable value = true →
      (execution.run limit channel).1 ≠ .failed (.undecodable address value)) :
    (relaxed execution).run limit channel =
      ((execution.run limit channel).1, relaxed (execution.run limit channel).2.1,
        (execution.run limit channel).2.2) := by
  induction limit generalizing execution channel with
  | zero => rfl
  | succ limit ih =>
    rcases hs : execution.step channel with ⟨answer, after, rest⟩
    rw [Execution.run, hs] at named
    rw [Execution.run, Execution.run, hs]
    rcases step_relaxed strict channel with hsame | ⟨address, value, passes⟩
    · rw [hs] at hsame
      rw [hsame]
      cases answer with
      | failed fault => rfl
      | overflowed => rfl
      | completed status =>
        cases status with
        | exited => rfl
        | running =>
          have hstrict := step_keeps_strict strict channel
          rw [hs] at hstrict
          exact ih hstrict rest named
    · cases hs.symm.trans passes.strict
      exact absurd rfl (named address value passes.unnamed.printable)

end Steps

section Streams

variable {S : Type} [ByteSink S] {execution : Execution}

/-- Where a strict execution on streams fails to decode a printable cell, the lenient one
passes it. -/
theorem passes_of_fails (strict : execution.lenient = false) (channel : StreamChannel S)
    {address value : Word} (printable : isPrintable value = true)
    (fails : (execution.step channel).1 = .failed (.undecodable address value)) :
    Passes execution channel address value := by
  rw [(step_eq_machine execution channel).1] at fails
  cases hout : (Cycle.step execution.lenient (machineOn execution channel)).1 with
  | completed status =>
    rw [hout] at fails
    cases fails
  | needsDecision other =>
    rw [hout] at fails
    cases fails
  | overflowed =>
    rw [hout] at fails
    cases fails
  | failed fault =>
    rw [hout] at fails
    have hfault : fault = .undecodable address value := StepEnd.failed.inj fails
    subst hfault
    rcases step_fault hout with hrefused | ⟨error, hio⟩
    · obtain ⟨found, hread, ⟨hphase, hdecode, hfault⟩ | ⟨-, -, hfault⟩⟩ := effect_refuse hrefused
      · cases hfault
        rw [strict] at hdecode
        exact passes_of_unnamed strict ⟨hphase, hread, printable, hdecode⟩ channel
      · cases hfault
    · cases hio

end Streams

section Commands

variable (program : String) (console : Console)

/-- Options that are read with and without strictness asked for before them end the
command alike, or differ in strictness alone. -/
theorem readOptions_strict (path : String) (options : List String) (strict : Bool) :
    (∃ report, readOptions program ⟨path, strict⟩ console options = .ended report ∧
        readOptions program ⟨path, true⟩ console options = .ended report) ∨
      ∃ kept after, readOptions program ⟨path, strict⟩ console options = .goesOn ⟨path, kept⟩ after ∧
        readOptions program ⟨path, true⟩ console options = .goesOn ⟨path, true⟩ after := by
  induction options generalizing strict console with
  | nil => exact .inr ⟨strict, console, rfl, rfl⟩
  | cons option options ih =>
    by_cases hs : option = "--strict"
    · subst hs
      exact ih console true
    · by_cases ht : option = "--no-timestamps"
      · subst ht
        exact ih console.withoutTimes strict
      · have hends : ∀ strict, readOptions program ⟨path, strict⟩ console (option :: options) =
            showUsage program 1 (console.fail ("Unexpected argument: " ++ option ++ "\n")) := by
          intro strict
          rw [readOptions]
          · exact hs
          · exact ht
        exact .inl ⟨_, hends strict, hends true⟩

variable (files : FileTree.FileSystem) (reader : List ReadEvent) (device : Option IoError)

/-- The run that a command line comes to, or the report with which it ends before that. -/
def begun (arguments : List String) : Stage Job :=
  (readArguments program console arguments).andThen fun options console =>
    load (FileTree.pathExists files options.path)
      (FileTree.contents files options.path (arrivingBytes reader))
      (if FileTree.isInput files options.path then [] else reader) device options console

/-- What the command does then. -/
def concluded : Stage Job → Report
  | .ended report => report
  | .goesOn job console =>
    match job.run phaseBound with
    | (ending, job) => job.finish ending console

/-- The command is what it comes to and what it does then. -/
theorem perform_eq (arguments : List String) :
    InterpreterCommand.perform program arguments files reader device console =
      concluded (begun program console files reader device arguments) := by
  rfl

/-- Asking for strictness behind the path changes nothing but the flag of the run that the
command comes to. -/
theorem begun_strict (path : String) (options : List String) :
    begun program console files reader device (path :: options) =
        begun program console files reader device (path :: "--strict" :: options) ∨
      ∃ image channel after,
        begun program console files reader device (path :: "--strict" :: options) =
          .goesOn ⟨.ofImage false image, channel⟩ after ∧
        begun program console files reader device (path :: options) =
          .goesOn ⟨.ofImage true image, channel⟩ after := by
  unfold begun
  by_cases hpath : path = "--help" ∨ path = "-h"
  · left
    simp only [readArguments, if_pos hpath]
  simp only [readArguments, if_neg hpath, readOptions]
  rcases readOptions_strict program console path options false with
    ⟨report, hlenient, hstrict⟩ | ⟨kept, after, hlenient, hstrict⟩
  · rw [hlenient, hstrict]
    exact .inl rfl
  rw [hlenient, hstrict]
  cases kept with
  | true => exact .inl rfl
  | false =>
    simp only [Stage.andThen, load]
    split
    next =>
      split
      next => exact .inl rfl
      next image _ => exact .inr ⟨image, _, after, rfl, rfl⟩
    next => exact .inl rfl

/-- Unless the strict run ends at a printable cell, the whole command does without
strictness what it does with it. -/
theorem perform_strict (path : String) (options : List String)
    (named : ∀ job after,
      begun program console files reader device (path :: "--strict" :: options) =
        .goesOn job after →
      ∀ address value, isPrintable value = true →
        (job.run phaseBound).1 ≠ .failed (.undecodable address value)) :
    InterpreterCommand.perform program (path :: options) files reader device console =
      InterpreterCommand.perform program (path :: "--strict" :: options) files reader device
        console := by
  rw [perform_eq, perform_eq]
  rcases begun_strict program console files reader device path options with
    hsame | ⟨image, channel, after, hstrict, hlenient⟩
  · rw [hsame]
  · have hstart : (Execution.ofImage false image).lenient = false := rfl
    have hrun := run_relaxed hstart phaseBound channel fun address value hp hfails =>
      named _ _ hstrict address value hp hfails
    rcases hs : (Execution.ofImage false image).run phaseBound channel with ⟨ending, last, rest⟩
    rw [hs] at hrun
    change (Execution.ofImage true image).run phaseBound channel = (ending, relaxed last, rest)
      at hrun
    rw [hstrict, hlenient]
    simp only [concluded, Job.run, hs, hrun]
    -- The report has the number of phases and the output, not the flag.
    rfl

end Commands

/-- Strict and lenient executions of an image differ at printable cells that name no
instruction only. While the strict one completes its phases, the lenient one completes
them with the same answers, registers, image, number of phases and streams. In the next
phase it does the same again, unless the strict one fails to decode a printable cell: that
one it executes as a no-op. So a strict run that exits is also the lenient run, and a
command whose program exits under strictness does the same without it. -/
theorem strict_run_is_lenient :
    (∀ {S : Type} [ByteSink S] (image : Image) (channel : StreamChannel S) (n : Nat),
      let strict := attempts n (.ofImage false image) channel
      let lenient := attempts n (.ofImage true image) channel
      (∀ answer ∈ strict.1, isCompleted answer = true) →
        lenient = (strict.1, relaxed strict.2.1, strict.2.2) ∧
        ((∀ address value, isPrintable value = true →
            (strict.2.1.step strict.2.2).1 ≠ .failed (.undecodable address value)) →
          lenient.2.1.step lenient.2.2 =
            ((strict.2.1.step strict.2.2).1, relaxed (strict.2.1.step strict.2.2).2.1,
              (strict.2.1.step strict.2.2).2.2)) ∧
        ∀ address value, isPrintable value = true →
          (strict.2.1.step strict.2.2).1 = .failed (.undecodable address value) →
          Passes strict.2.1 strict.2.2 address value) ∧
    (∀ {S : Type} [ByteSink S] (image : Image) (channel : StreamChannel S) (limit : Nat),
      let strict := (Execution.ofImage false image).run limit channel
      strict.1 = .exited →
        (Execution.ofImage true image).run limit channel =
          (.exited, relaxed strict.2.1, strict.2.2)) ∧
    ∀ (program : String) (console : Console) (files : FileTree.FileSystem)
      (reader : List ReadEvent) (device : Option IoError) (path : String) (options : List String),
      (∀ job after,
        begun program console files reader device (path :: "--strict" :: options) =
          .goesOn job after → (job.run phaseBound).1 = .exited) →
      InterpreterCommand.perform program (path :: options) files reader device console =
        InterpreterCommand.perform program (path :: "--strict" :: options) files reader
          device console := by
  have hstart : ∀ image, (Execution.ofImage false image).lenient = false := fun _ => rfl
  refine ⟨?_, ?_, ?_⟩
  · intro S _ image channel n strict lenient completes
    obtain ⟨hruns, hflag⟩ := attempts_relaxed (hstart image) n channel completes
    have hlenient : lenient = (strict.1, relaxed strict.2.1, strict.2.2) := hruns
    refine ⟨hlenient, fun named => ?_, fun address value printable fails => ?_⟩
    · rw [hlenient]
      rcases step_relaxed hflag strict.2.2 with hsame | ⟨address, value, passes⟩
      · exact hsame
      · have hfails := congrArg Prod.fst passes.strict
        exact absurd hfails (named address value passes.unnamed.printable)
    · exact passes_of_fails hflag strict.2.2 printable fails
  · intro S _ image channel limit strict exits
    have hrun := run_relaxed (hstart image) limit channel fun address value _ hfails => by
      cases exits.symm.trans hfails
    rw [show ((Execution.ofImage false image).run limit channel).1 = .exited from exits] at hrun
    exact hrun
  · intro program console files reader device path options exits
    refine perform_strict program console files reader device path options ?_
    intro job after hbegun address value _ hfails
    cases (exits job after hbegun).symm.trans hfails

/-- A program that starts with an exit runs for one phase. -/
theorem run_of_exit {P : Type} [Channel P] {image : Image} (h : image.read 0 = some 81)
    (channel : P) (limit : Nat) :
    (Execution.ofImage false image).run (limit + 1) channel =
      (.exited, ⟨.initial, image, false, 1⟩, channel) := by
  have hread : Memory.read image 0 = some 81 := h
  have hhalts : effect false Registers.initial (Memory.read image) = .halt := by
    simp only [effect, Registers.initial, fetchEffect, needing, hread]
    rfl
  rw [Execution.run, Execution.ofImage, Execution.step, step_eq_perform, hhalts]
  rfl

/-- A no-op and a 33 behind it, which names nothing there: two phases complete, and the
next one fails. -/
theorem attempts_of_nameless {P : Type} [Channel P] {image : Image} (hnoop : image.read 0 = some 68)
    (hnameless : (image.write 0 33).read 1 = some 33) (channel : P) :
    attempts 2 (Execution.ofImage false image) channel =
        ([.completed .running, .completed .running],
          ⟨⟨0, 1, 1, .fetch⟩, image.write 0 33, false, 2⟩, channel) ∧
      ((Execution.mk ⟨0, 1, 1, .fetch⟩ (image.write 0 33) false 2).step channel).1 =
        .failed (.undecodable 1 33) := by
  have hfirst : Memory.read image 0 = some 68 := hnoop
  have hsecond : Memory.read (image.write 0 33) 1 = some 33 := hnameless
  have hmove : effect false Registers.initial (Memory.read image) = .move ⟨0, 0, 0, .advance⟩ := by
    simp only [effect, Registers.initial, fetchEffect, needing, hfirst]
    rfl
  have hstore : effect false ⟨0, 0, 0, .advance⟩ (Memory.read image) =
      .store 0 33 ⟨0, 1, 1, .fetch⟩ := by
    simp only [effect, advanceEffect, needing, hfirst]
    rfl
  have hrefuse : effect false ⟨0, 1, 1, .fetch⟩ (Memory.read (image.write 0 33)) =
      .refuse (.undecodable 1 33) := by
    simp only [effect, fetchEffect, needing, hsecond]
    rfl
  have hone : (Execution.ofImage false image).step channel =
      (.completed .running, ⟨⟨0, 0, 0, .advance⟩, image, false, 1⟩, channel) := by
    rw [Execution.ofImage, Execution.step, step_eq_perform, hmove]
    rfl
  have htwo : (Execution.mk ⟨0, 0, 0, .advance⟩ image false 1).step channel =
      (.completed .running, ⟨⟨0, 1, 1, .fetch⟩, image.write 0 33, false, 2⟩, channel) := by
    rw [Execution.step, step_eq_perform, hstore]
    rfl
  constructor
  · rw [attempts_succ hone, attempts_succ htwo]
    rfl
  · rw [Execution.step, step_eq_perform, hrefuse]
    rfl

/-- A no-op and a 33 behind it, which names nothing there: after two phases the strict
execution fails, and the lenient one goes on with the same registers. A program that exits
at once does so with and without strictness, and so does the command on its file. -/
theorem strict_run_is_lenient_of_nameless :
    (∃ (image : Image) (channel : StreamChannel ScriptedSink),
      (attempts 2 (.ofImage false image) channel).1 = [.completed .running, .completed .running] ∧
      Passes (attempts 2 (.ofImage false image) channel).2.1 channel 1 33 ∧
      (attempts 2 (.ofImage true image) channel).1 = [.completed .running, .completed .running] ∧
      (attempts 2 (.ofImage true image) channel).2.1.registers = ⟨0, 1, 1, .fetch⟩) ∧
    (∃ image, SourceText.load ⟨[81, 80]⟩ = .ok image ∧
      (Execution.ofImage true image).run 1 (StreamChannel.mk [] ScriptedSink.reliable) =
        (.exited, ⟨.initial, image, true, 1⟩, ⟨[], ScriptedSink.reliable⟩)) ∧
    let directory : FileTree.Directory := [("a", .file [81, 80])]
    InterpreterCommand.perform "m" ["a"] directory [] none ⟨.info, false, true, #[]⟩ =
      InterpreterCommand.perform "m" ["a", "--strict"] directory [] none
        ⟨.info, false, true, #[]⟩ := by
  obtain ⟨hphases, hruns, hcommands⟩ := strict_run_is_lenient
  obtain ⟨exiting, loads⟩ : ∃ image, SourceText.load ⟨[81, 80]⟩ = .ok image := ⟨_, rfl⟩
  have hbyte : (SourceText.mk [81, 80]).cells[0]? = some 81 := rfl
  have hcode : exiting.read 0 = some 81 := (read_of_load loads hbyte).1
  refine ⟨?_, ⟨exiting, loads, ?_⟩, ?_⟩
  · obtain ⟨image, hnoop, hnameless⟩ : ∃ image : Image,
        image.read 0 = some 68 ∧ (image.write 0 33).read 1 = some 33 := by
      refine ⟨((Image.ofCells #[]).write 0 68).write 1 33, ?_, ?_⟩
      · rw [Image.read_write, Image.read_write]
        rfl
      · rw [Image.read_write, Image.read_write]
        rfl
    let channel : StreamChannel ScriptedSink := ⟨[], .reliable⟩
    obtain ⟨htwo, hfails⟩ := attempts_of_nameless hnoop hnameless channel
    have hcompletes : ∀ answer ∈ (attempts 2 (Execution.ofImage false image) channel).1,
        isCompleted answer = true := by
      rw [htwo]
      simp only [isCompleted, List.forall_mem_cons, List.not_mem_nil, false_implies, implies_true,
        and_self]
    obtain ⟨hsame, -, hpasses⟩ := hphases image channel 2 hcompletes
    rw [htwo] at hsame hpasses
    have hpassed := hpasses 1 33 (by decide) hfails
    refine ⟨image, channel, ?_, ?_, ?_, ?_⟩
    · rw [htwo]
    · rw [htwo]
      exact hpassed
    · rw [hsame]
    · rw [hsame]
      rfl
  · have hlenient := hruns exiting (StreamChannel.mk [] ScriptedSink.reliable) 1
    rw [run_of_exit hcode] at hlenient
    exact hlenient rfl
  · intro directory
    refine hcommands "m" _ _ _ _ "a" [] fun job after hbegun => ?_
    have hplace : FileTree.locate directory "a" = .ok (.file [81, 80]) := by
      unfold directory
      cbv
    have hcontents : FileTree.contents directory "a" [] = .ok [81, 80] := by
      rw [FileTree.contents, hplace]
      rfl
    have harguments : readArguments "m" ⟨.info, false, true, #[]⟩ ["a", "--strict"] =
        .goesOn ⟨"a", true⟩ ⟨.info, false, true, #[]⟩ := by
      rfl
    rw [begun, harguments] at hbegun
    simp only [Stage.andThen, load, FileTree.pathExists, hplace, arrivingBytes, hcontents,
      loadContents, loads] at hbegun
    cases hbegun
    have hbound : phaseBound = 999999999999999999 + 1 := rfl
    simp only [Job.run, hbound, Bool.not_true, run_of_exit hcode]

end TernarySynth.Proofs.LenientRun
