import TernarySynth.LogLine

/-!
# Consoles

What a command has to say apart from its output proper: log messages, shown if
their level is high enough, and plain text such as usage. A console is set up
from the environment, collects notices in order, and hands them over to
whoever writes them out. Whether a message is shown with its time is decided
when the message is logged.
-/

namespace TernarySynth.Console

open LogLine Timestamp

/-- The variables that a command looks at, as far as they are set. -/
structure Environment where
  /-- The kind of terminal. -/
  terminal : Option String
  /-- The request for no colours. -/
  noColour : Option String
  /-- The minimum level of messages. -/
  minimumLevel : Option String

/-- Something to be written out. -/
inductive Notice where
  /-- A log message, with or without its time. -/
  | logged (entry : Entry) (timed : Bool)
  /-- Plain text. -/
  | plain (text : String)

/-- The written form of a notice at a point in time. -/
def Notice.text (coloured : Bool) (time : Timestamp) : Notice → String
  | .logged entry true => entry.line coloured (some time)
  | .logged entry false => entry.line coloured none
  | .plain text => text

/-- How messages are shown, and those that have not been written out yet. -/
structure Console where
  /-- Lowest level that is shown. -/
  minimum : Level
  /-- Whether lines are coloured. -/
  coloured : Bool
  /-- Whether messages carry their time. -/
  timed : Bool
  /-- Notices in order. -/
  notices : Array Notice

namespace Console

/-- Log a message. -/
def log (console : Console) (entry : Entry) : Console :=
  match console with
  | ⟨minimum, coloured, timed, notices⟩ =>
    if entry.level.isShown minimum then
      ⟨minimum, coloured, timed, notices.push (.logged entry timed)⟩
    else ⟨minimum, coloured, timed, notices⟩

/-- Log a failure. -/
def fail (console : Console) (text : String) : Console := console.log ⟨.error, text⟩

/-- Print plain text. -/
def print (console : Console) (text : String) : Console :=
  match console with
  | ⟨minimum, coloured, timed, notices⟩ => ⟨minimum, coloured, timed, notices.push (.plain text)⟩

/-- Leave out the time from now on. -/
def withoutTimes (console : Console) : Console :=
  match console with
  | ⟨minimum, coloured, _, notices⟩ => ⟨minimum, coloured, false, notices⟩

/-- The variable that gives the minimum level. -/
def levelVariable : String := "MALBOLGE_LOG"

/-- The console of an environment. An unknown minimum level is reported and
otherwise ignored. -/
def ofEnvironment (environment : Environment) : Console :=
  let coloured := isColoured environment.terminal environment.noColour
  match environment.minimumLevel with
  | none => ⟨.info, coloured, true, #[]⟩
  | some text =>
    match Level.parse text with
    | .ok level => ⟨level, coloured, true, #[]⟩
    | .error name =>
      (Console.mk .info coloured true #[]).log
        ⟨.warn, levelVariable ++ ": " ++ Level.unknownMessage name⟩

/-- The notices so far, and the console without them. -/
def take (console : Console) : List Notice × Console :=
  match console with
  | ⟨minimum, coloured, timed, notices⟩ => (notices.toList, ⟨minimum, coloured, timed, #[]⟩)

end Console

/-- The end of a command. -/
structure Report where
  /-- Its exit code; 0 says that all went well. -/
  exitCode : Nat
  /-- Bytes of output that are still to be written. -/
  output : List UInt8
  /-- The console with the notices that are still to be written. -/
  console : Console

/-- A point that a command has come to. -/
inductive Stage (α : Type) where
  /-- The command has ended. -/
  | ended (report : Report)
  /-- The command goes on from here. -/
  | goesOn (value : α) (console : Console)

/-- End a command with a failure. -/
def Stage.failed {α : Type} (console : Console) (text : String) : Stage α :=
  .ended ⟨1, [], console.fail text⟩

/-- Go on to the next part of a command. -/
def Stage.andThen {α β : Type} (stage : Stage α) (next : α → Console → Stage β) : Stage β :=
  match stage with
  | .ended report => .ended report
  | .goesOn value console => next value console

end TernarySynth.Console
