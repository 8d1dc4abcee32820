import TernarySynth.InterpreterCommand
import TernarySynth.SearchCommand
import Std.Time.DateTime.Timestamp

/-!
# Command line

The program is either of two commands. Started under the name `interpreter` it
runs a program file between standard input and standard output; under any
other name it searches for a program. What a command does is defined
elsewhere. Here its notices and its output are written as they come up, a run
waits for input when it asks for some, and a search is watched round by round.
-/

namespace TernarySynth.Main

open StreamError ByteStream ImageRun Console

/-- The system's error of a number. Some calls report the number with its sign
changed, and words of their own for it. -/
def systemError (code : UInt32) (reason : String) : IoError :=
  match min code (0 - code) with
  | 2 => .notFound
  | 20 => .notADirectory
  | 21 => .isADirectory
  | 28 => .noSpace
  | 32 => .pipeClosed
  | 36 => .nameTooLong
  | number => .system number.toNat reason

/-- The system's report of a failed request. -/
def reasonOf : IO.Error → IoError
  | .alreadyExists _ code reason | .invalidArgument _ code reason
  | .permissionDenied _ code reason | .resourceExhausted _ code reason
  | .inappropriateType _ code reason | .noSuchThing _ code reason
  | .interrupted _ code reason | .noFileOrDirectory _ code reason
  | .otherError code reason | .resourceBusy code reason | .resourceVanished code reason
  | .unsupportedOperation code reason | .hardwareFault code reason
  | .unsatisfiedConstraints code reason | .illegalOperation code reason
  | .protocolError code reason | .timeExpired code reason => systemError code reason
  | .unexpectedEof => .unexpectedEof
  | .userError reason => .system 5 reason

/-- Whether a file could not be read because its path leads nowhere. -/
def isMissing : Except IoError (List UInt8) → Bool
  | .error error => [.notFound, .notADirectory, .nameTooLong].contains error
  | .ok _ => false

/-- The variables that a command looks at. -/
def environment : IO Environment :=
  return ⟨← IO.getEnv "TERM", ← IO.getEnv "NO_COLOR", ← IO.getEnv Console.levelVariable⟩

/-- The present time. -/
def now : IO Timestamp.Timestamp := do
  let nanos := (← Std.Time.Timestamp.now).toNanosecondsSinceUnixEpoch.val.toNat
  return ⟨nanos / 1000000000, nanos / 1000000 % 1000⟩

/-- Write the notices of a console, each with the present time if it has one. A
notice that cannot be written is lost. -/
def writeNotices (console : Console) : IO Console := do
  match console.take with
  | (notices, console) =>
    for notice in notices do
      let text := notice.text console.coloured (← now)
      try (← IO.getStderr).putStr text catch _ => pure ()
    return console

/-- Write bytes to standard output. -/
def writeOutput (bytes : List UInt8) : IO Unit := do
  unless bytes.isEmpty do
    let output ← IO.getStdout
    output.write ⟨bytes.toArray⟩
    output.flush

/-- Write what the device of a job has taken. If this fails the bytes wait
again, before a device that fails from now on. -/
def deliver (job : InterpreterCommand.Job) : IO (Option IoError × InterpreterCommand.Job) := do
  match job with
  | ⟨execution, ⟨reader, sink⟩⟩ =>
    match sink.takeWritten with
    | (bytes, ⟨written, waiting, fault⟩) =>
      try
        writeOutput bytes
        return (none, ⟨execution, ⟨reader, ⟨written, waiting, fault⟩⟩⟩)
      catch error =>
        let error := reasonOf error
        return (some error,
          ⟨execution, ⟨reader, ⟨written, bytes.toArray ++ waiting, some error⟩⟩⟩)

/-- Wait for the answer of standard input to one read. -/
def awaitRead : IO ReadEvent := do
  try
    match (← (← IO.getStdin).read 1).toList with
    | byte :: _ => return .byte byte
    | [] => return .ended
  catch error => return .refused (reasonOf error)

/-- The reader of a job that has one answer to give and then has to wait. -/
def answering (event : ReadEvent) : List ReadEvent := [event, .refused .wouldBlock]

/-- An execution without the count of its last phase. -/
def uncounted (execution : Execution) : Execution :=
  match execution with
  | ⟨registers, image, lenient, phases⟩ => ⟨registers, image, lenient, phases - 1⟩

/-- Run a job over at most that many phases. It stops where input is wanted, and
goes on when there is some. A phase whose output cannot be written has failed. -/
def runJob : Nat → InterpreterCommand.Job → IO (RunEnd × InterpreterCommand.Job)
  | 0, job => return (.unfinished, job)
  | limit + 1, job => do
    match job.run 1 with
    | (ending, job) =>
      match ending, ← deliver job with
      | .unfinished, (none, job) => runJob limit job
      | .unfinished, (some error, ⟨execution, channel⟩) =>
        return (.failed (.io error), ⟨uncounted execution, channel⟩)
      | .failed (.io .wouldBlock), (none, ⟨execution, ⟨_, sink⟩⟩) =>
        runJob limit ⟨execution, ⟨answering (← awaitRead), sink⟩⟩
      | _, (some error, job) => return (.failed (.io error), job)
      | ending, (none, job) => return (ending, job)

/-- Read a file. -/
def readContents (path : String) : IO (Except IoError (List UInt8)) := do
  try
    let bytes ← IO.FS.readBinFile path
    return .ok bytes.toList
  catch error => return .error (reasonOf error)

/-- The interpreter. -/
def interpret (program : String) (arguments : List String) (console : Console) : IO Report := do
  match InterpreterCommand.readArguments program console arguments with
  | .ended report => return report
  | .goesOn options console =>
    let contents ← readContents options.path
    match InterpreterCommand.load (!isMissing contents) contents [.refused .wouldBlock] none
      options console with
    | .ended report => return report
    | .goesOn job console =>
      let (ending, job) ← runJob InterpreterCommand.phaseBound job
      let (_, job) ← deliver ⟨job.execution, job.channel.flush.2⟩
      return job.finish ending console

/-- Go on with a search for at most that many rounds, and write its messages
after each. -/
def searchOn : Nat → Synthesis.Session RandomSource.Generator → Console → IO Report
  | 0, _, console => return ⟨1, [], console.fail Synthesis.Failure.unfinished.message⟩
  | rounds + 1, session, console => do
    match SearchCommand.advance 1 session (← writeNotices console) with
    | .ended report => return report
    | .goesOn session console => searchOn rounds session console

/-- The synthesizer. -/
def search (program : String) (arguments : List String) (console : Console) : IO Report := do
  let entropy := (← IO.getRandomBytes 8).toList.foldl (fun n byte => n * 256 + byte.toUInt64) 0
  match (SearchCommand.readArguments program console arguments).andThen
    (SearchCommand.start entropy) with
  | .ended report => return report
  | .goesOn session console =>
    match SearchCommand.logNotes session console with
    | (session, console) => searchOn Synthesis.roundBound session console

/-- Write what is left of a command, and give its exit code. -/
def conclude (report : Report) : IO UInt32 := do
  writeOutput report.output
  let _ ← writeNotices report.console
  return report.exitCode.toUInt32

/-- Run the command that belongs to the name of the program. -/
def command (arguments : List String) : IO UInt32 := do
  let program := ((toString (← IO.appPath)).splitOn "/").getLastD ""
  let console ← writeNotices (Console.ofEnvironment (← environment))
  if program = "interpreter" then conclude (← interpret program arguments console)
  else conclude (← search program arguments console)

end TernarySynth.Main

/-- The program. -/
def main (arguments : List String) : IO UInt32 := TernarySynth.Main.command arguments
