import TernarySynth.Console
import TernarySynth.Synthesis

/-!
# The synthesizer as a command

The command takes a target and options in any order, searches for a program
that prints the target, and prints the program it finds. Its parts are
separate, so that a caller can write messages out between two rounds; `perform`
puts them together.
-/

namespace TernarySynth.SearchCommand

open RandomSource Synthesis LogLine Console

/-- The usage of the command under a name. -/
def usage (program : String) : String :=
  "Malbolge program synthesizer\n\n" ++
  "USAGE:\n" ++
  "    " ++ program ++ " [TARGET] [OPTIONS]\n\n" ++
  "ARGS:\n" ++
  "    [TARGET]    Text the program must print, case-insensitive " ++
    "(defaults to \"Hello World\")\n\n" ++
  "OPTIONS:\n" ++
  "    -w, --beam-width <n>    Nodes kept per round (defaults to 10000)\n" ++
  "    -s, --seed <n>          Seed for tie-breaking (random if not set)\n" ++
  "    -r, --max-rounds <n>    Give up after this many rounds\n" ++
  "    --no-timestamps         Omit timestamps from log lines\n" ++
  "    -h, --help              Print this help message\n\n" ++
  "ENVIRONMENT:\n" ++
  "    MALBOLGE_LOG    Minimum log level: debug, info, warn or error (defaults to info)\n\n" ++
  "EXAMPLES:\n" ++
  "    # Search for the default target\n" ++
  "    " ++ program ++ "\n\n" ++
  "    # Reproducible search with a narrower beam\n" ++
  "    " ++ program ++ " \"hi\" --beam-width 100 --seed 7\n\n"

/-- End the command with its usage. -/
def showUsage {α : Type} (program : String) (exitCode : Nat) (console : Console) : Stage α :=
  .ended ⟨exitCode, [], console.print (usage program)⟩

/-- Largest number that an option can have. -/
def numberMax : Nat := 18446744073709551615

/-- The value of decimal digits, behind digits with a value. -/
def decimalValue : Nat → List Char → Option Nat
  | value, [] => some value
  | value, c :: rest =>
    if c.isDigit then decimalValue (10 * value + (c.toNat - '0'.toNat)) rest else none

/-- The number of an option: decimal digits, after a plus sign or not. -/
def readNumber (text : String) : Option Nat :=
  let digits := match text.toList with
    | '+' :: rest => rest
    | digits => digits
  match digits with
  | [] => none
  | _ =>
    match decimalValue 0 digits with
    | some value => if value ≤ numberMax then some value else none
    | none => none

/-- The option that a word stands for, as a change of the configuration. -/
def option? : String → Option (Nat → SearchConfig → SearchConfig)
  | "--beam-width" => some fun n config => { config with width := n }
  | "-w" => some fun n config => { config with width := n }
  | "--seed" => some fun n config => { config with seed := some n.toUInt64 }
  | "-s" => some fun n config => { config with seed := some n.toUInt64 }
  | "--max-rounds" => some fun n config => { config with roundLimit := some n }
  | "-r" => some fun n config => { config with roundLimit := some n }
  | _ => none

/-- Whether a word looks like an option. -/
def isOption (word : String) : Bool := word.toList.head? == some '-'

/-- Read arguments; `target` is the target if it has been read. -/
def readWords (program : String) (config : SearchConfig) (target : Option String)
    (console : Console) : List String → Stage SearchConfig
  | [] => .goesOn { config with target := target.getD config.target } console
  | "--help" :: _ => showUsage program 0 console
  | "-h" :: _ => showUsage program 0 console
  | "--no-timestamps" :: rest => readWords program config target console.withoutTimes rest
  | word :: rest =>
    match option? word, rest with
    | some _, [] => .failed console (word ++ " requires an argument")
    | some change, value :: rest =>
      match readNumber value with
      | some n => readWords program (change n config) target console rest
      | none =>
        .failed console
          ("Invalid value for " ++ word ++ ": '" ++ value ++ "' is not a valid number")
    | none, rest =>
      if isOption word || target.isSome then
        showUsage program 1 (console.fail ("Unexpected argument: " ++ word ++ "\n"))
      else readWords program config (some word) console rest

/-- Read all arguments. A search needs something to search for. -/
def readArguments (program : String) (console : Console) (arguments : List String) :
    Stage SearchConfig :=
  (readWords program .standard none console arguments).andThen fun config console =>
    if config.target.isEmpty then .failed console "Target must not be empty"
    else .goesOn config console

/-- Begin the search. `entropy` seeds it where no seed is given. -/
def start (entropy : UInt64) (config : SearchConfig) (console : Console) :
    Stage (Session Generator) :=
  match Session.start config (config.generator entropy) with
  | .error failure => .failed console failure.message
  | .ok session => .goesOn session console

/-- Log the messages of a session. -/
def logNotes (session : Session Generator) (console : Console) :
    Session Generator × Console :=
  match session with
  | ⟨config, searcher, notes⟩ => (⟨config, searcher, #[]⟩, notes.foldl Console.log console)

/-- End the command after the end of a search. -/
def finish (ending : Ending) (console : Console) : Report :=
  match ending with
  | .found solution =>
    let output := LossyText.ofBytes solution.output
    let console := console.log ⟨.info, "Final output: " ++ output⟩
    let console := console.log ⟨.info, "Final score: " ++ toString solution.score⟩
    ⟨0, (solution.program.display ++ "\n").toUTF8.toList, console⟩
  | .exhausted _ => ⟨1, [], console.fail "Not found"⟩
  | .stopped _ => ⟨1, [], console.fail "Not found"⟩

/-- Go on with the search for at most `limit` rounds. -/
def advance (limit : Nat) (session : Session Generator) (console : Console) :
    Stage (Session Generator) :=
  match session.run limit with
  | .error failure => .failed console failure.message
  | .ok (ending, session) =>
    match logNotes session console with
    | (session, console) =>
      match ending with
      | none => .goesOn session console
      | some ending => .ended (finish ending console)

/-- Run the whole command. -/
def perform (program : String) (arguments : List String) (entropy : UInt64)
    (console : Console) : Report :=
  let stage := ((readArguments program console arguments).andThen (start entropy)).andThen
    (advance roundBound)
  match stage with
  | .ended report => report
  | .goesOn _ console => ⟨1, [], console.fail Failure.unfinished.message⟩

end TernarySynth.SearchCommand
