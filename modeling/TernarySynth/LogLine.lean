import TernarySynth.CharClass
import TernarySynth.TextLayout
import TernarySynth.Timestamp

/-!
# Log lines

Messages carry a level. A log shows those at or above its minimum level, each
on a line of its own: the time unless it is left out, the level in a field of
five characters, and the text. On a terminal with colours the line stands
between two resets and begins with the codes of its level.
-/

namespace TernarySynth.LogLine

open CharClass TextLayout Timestamp

/-- How grave a message is, the gravest last. -/
inductive Level where
  /-- Inner workings. -/
  | debug
  /-- Progress. -/
  | info
  /-- Something that deserves notice. -/
  | warn
  /-- A failure. -/
  | error
  deriving DecidableEq, Inhabited

namespace Level

/-- Position among the levels. -/
def rank : Level → Nat
  | .debug => 0
  | .info => 1
  | .warn => 2
  | .error => 3

/-- The level at a position; all positions beyond the last one are errors. -/
def ofRank : Nat → Level
  | 0 => .debug
  | 1 => .info
  | 2 => .warn
  | _ => .error

/-- A level is found again at its position. -/
theorem ofRank_rank (level : Level) : ofRank level.rank = level := by cases level <;> rfl

/-- The spelled-out name. -/
def name : Level → String
  | .debug => "Debug"
  | .info => "Info"
  | .warn => "Warn"
  | .error => "Error"

/-- The printed name. -/
def label : Level → String
  | .debug => "DEBUG"
  | .info => "INFO"
  | .warn => "WARN"
  | .error => "ERROR"

/-- The printed name in a field. -/
def display (layout : Layout) (level : Level) : String := layout.fill level.label

/-- Whether messages of a level are shown when `minimum` is the lowest level. -/
def isShown (level minimum : Level) : Bool := decide (minimum.rank ≤ level.rank)

/-- A text without the white space around it, ASCII letters in lower case. -/
def normalForm (text : String) : String :=
  String.ofList ((trim text.toList).map Char.toLower)

/-- The level that a text names. Surrounding white space and the case of ASCII
letters do not matter. An unknown name is reported in its normal form. -/
def parse (text : String) : Except String Level :=
  match normalForm text with
  | "debug" => .ok .debug
  | "info" => .ok .info
  | "warn" => .ok .warn
  | "warning" => .ok .warn
  | "error" => .ok .error
  | other => .error other

/-- The reported text for a name that is no level. -/
def unknownMessage (name : String) : String := "unknown log level '" ++ name ++ "'"

/-- What switches a terminal to the colours of a level. -/
def colourCodes : Level → String
  | .debug => "\x1b[2m\x1b[36m"
  | .info => ""
  | .warn => "\x1b[1m\x1b[33m"
  | .error => "\x1b[1m\x1b[31m"

end Level

/-- What switches a terminal back to its plain colours. -/
def colourReset : String := "\x1b[0m"

/-- A message for the log. -/
structure Entry where
  /-- How grave it is. -/
  level : Level
  /-- What it says. -/
  text : String
  deriving DecidableEq

/-- The line of a message, with a time if there is one. -/
def Entry.plainLine (entry : Entry) (time : Option Timestamp) : String :=
  let stamp := match time with
    | some time => time.display ++ " "
    | none => ""
  stamp ++ "[" ++ entry.level.display (.ofWidth 5) ++ "] " ++ entry.text ++ "\n"

/-- The line of a message as it is sent to a terminal. -/
def Entry.line (coloured : Bool) (entry : Entry) (time : Option Timestamp) : String :=
  if coloured then
    colourReset ++ entry.level.colourCodes ++ entry.plainLine time ++ colourReset
  else entry.plainLine time

/-- Whether lines are coloured, given the kind of terminal and the request for
no colours, as far as they are set. -/
def isColoured (terminal noColour : Option String) : Bool :=
  match terminal, noColour with
  | some terminal, none => terminal != "dumb"
  | _, _ => false

end TernarySynth.LogLine
