import TernarySynth.Console
import TernarySynth.FileTree
import TernarySynth.ImageRun
import TernarySynth.SourceText

/-!
# The interpreter as a command

The command takes the path of a program, and options behind it. It loads the
program and runs it between an input and a line-buffered output. Its parts are
separate, so that a caller can read the file, provide input as it comes and
write output as it goes; `perform` puts them together for files and an input
that are known in advance.
-/

namespace TernarySynth.InterpreterCommand

open StreamError TernarySynth.Cycle ByteStream ImageRun SourceText LogLine Console

/-- What the command was asked to do. -/
structure Options where
  /-- Path of the program. -/
  path : String
  /-- Whether printable cells that name no instruction are failures. -/
  strict : Bool

/-- A run of a program with its input and output. -/
structure Job where
  /-- The machine. -/
  execution : Execution
  /-- Its input and output. -/
  channel : StreamChannel LineBuffer

/-- The usage of the command under a name. -/
def usage (program : String) : String :=
  "Malbolge interpreter\n\n" ++
  "USAGE:\n" ++
  "    " ++ program ++ " <program> [OPTIONS]\n\n" ++
  "ARGS:\n" ++
  "    <program>    Malbolge source file\n\n" ++
  "OPTIONS:\n" ++
  "    --strict           Fail on printable cells that name no instruction\n" ++
  "    --no-timestamps    Omit timestamps from log lines\n" ++
  "    -h, --help         Print this help message\n\n" ++
  "ENVIRONMENT:\n" ++
  "    MALBOLGE_LOG    Minimum log level: debug, info, warn or error (defaults to info)\n\n"

/-- End the command with its usage. -/
def showUsage {α : Type} (program : String) (exitCode : Nat) (console : Console) : Stage α :=
  .ended ⟨exitCode, [], console.print (usage program)⟩

/-- Read the options behind the path. -/
def readOptions (program : String) (options : Options) (console : Console) :
    List String → Stage Options
  | [] => .goesOn options console
  | "--strict" :: rest => readOptions program ⟨options.path, true⟩ console rest
  | "--no-timestamps" :: rest => readOptions program options console.withoutTimes rest
  | other :: _ =>
    showUsage program 1 (console.fail ("Unexpected argument: " ++ other ++ "\n"))

/-- Read all arguments. -/
def readArguments (program : String) (console : Console) : List String → Stage Options
  | [] => showUsage program 1 console
  | path :: rest =>
    if path = "--help" ∨ path = "-h" then showUsage program 0 console
    else readOptions program ⟨path, false⟩ console rest

/-- The image of a file, given what reading it gave. -/
def loadContents : Except IoError (List UInt8) → Except LoadError MemoryImage.Image
  | .error error => .error (.io error)
  | .ok bytes => (SourceText.mk bytes).load

/-- Load the program, given whether its path exists and what reading it gave. -/
def load (found : Bool) (contents : Except IoError (List UInt8)) (reader : List ReadEvent)
    (device : Option IoError) (options : Options) (console : Console) : Stage Job :=
  if found then
    match loadContents contents with
    | .error error =>
      .failed console ("Failed to load " ++ options.path ++ ": " ++ error.message)
    | .ok image =>
      .goesOn ⟨.ofImage (!options.strict) image, ⟨reader, .ofDevice device⟩⟩ console
  else .failed console ("Input file does not exist: " ++ options.path)

/-- Run the program for at most `limit` phases. -/
def Job.run (limit : Nat) (job : Job) : RunEnd × Job :=
  match job with
  | ⟨execution, channel⟩ =>
    match execution.run limit channel with
    | (ending, execution, channel) => (ending, ⟨execution, channel⟩)

/-- What is wrong with the end of a run, if anything is. -/
def problemOf : RunEnd → Option String
  | .exited => none
  | .failed fault => some fault.message
  | .overflowed => some "attempt to add with overflow"
  | .unfinished => some "the program ran on without end"

/-- End the command after the end of a run. All output is flushed first; that
this failed is only reported if the run itself went well. -/
def Job.finish (ending : RunEnd) (job : Job) (console : Console) : Report :=
  match job.channel.flush with
  | (flushed, channel) =>
    let output := channel.sink.written.toList
    let phases := toString job.execution.phases
    match problemOf ending, flushed with
    | some problem, _ =>
      ⟨1, output, console.fail ("Runtime error after " ++ phases ++ " steps: " ++ problem)⟩
    | none, .error fault => ⟨1, output, console.fail ("Failed to write output: " ++ fault.message)⟩
    | none, .ok () => ⟨0, output, console.log ⟨.debug, "Exited after " ++ phases ++ " steps"⟩⟩

/-- How long a program may run for where nobody can interrupt it. -/
def phaseBound : Nat := 1000000000000000000

/-- Run the whole command. An input that was read as the program has ended when
the program asks for it. -/
def perform (program : String) (arguments : List String) (files : FileTree.FileSystem)
    (reader : List ReadEvent) (device : Option IoError) (console : Console) : Report :=
  let stage := (readArguments program console arguments).andThen fun options console =>
    load (FileTree.pathExists files options.path)
      (FileTree.contents files options.path (arrivingBytes reader))
      (if FileTree.isInput files options.path then [] else reader) device options console
  match stage with
  | .ended report => report
  | .goesOn job console =>
    match job.run phaseBound with
    | (ending, job) => job.finish ending console

end TernarySynth.InterpreterCommand
