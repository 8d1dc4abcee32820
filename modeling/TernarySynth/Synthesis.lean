import TernarySynth.TargetSearch
import TernarySynth.SourceText
import TernarySynth.LogLine

/-!
# Synthesis

A synthesis searches for a program that prints a target, from an empty memory
and round by round, and reports its progress in log messages. It ends with a
program, which is written out from the decisions of the goal, when every branch
has died out, or when the limit of rounds is reached. A session can be run in
pieces of any number of rounds.
-/

namespace TernarySynth.Synthesis

open RandomSource BeamSearch StateTree TargetSearch SourceText LogLine

/-- The parameters of a synthesis. -/
structure SearchConfig where
  /-- What the program has to print, without regard to ASCII case. -/
  target : String
  /-- How many nodes a round keeps. -/
  width : Nat
  /-- The seed of the choices among tied nodes, if it is fixed. -/
  seed : Option UInt64
  /-- How many rounds are run at most. -/
  roundLimit : Option Nat
  /-- Whether printable cells that name no instruction are no-ops. -/
  lenient : Bool
  deriving DecidableEq

/-- The parameters that hold unless others are given. -/
def SearchConfig.standard : SearchConfig := ⟨"Hello World", 10000, none, none, true⟩

/-- The generator of a configuration; `entropy` seeds it where no seed is fixed. -/
def SearchConfig.generator (config : SearchConfig) (entropy : UInt64) : Generator :=
  .ofSeed (config.seed.getD entropy)

/-- How many phases a single expansion may run. -/
def phaseLimit : Nat := 1000000000000000000

/-- What a configuration searches for, with a bound on the phases of an
expansion. -/
def SearchConfig.search (config : SearchConfig) (phases : Nat) : Target :=
  ⟨config.target.toUTF8.toList, config.lenient, phases⟩

/-- A program that was found. -/
structure Solution where
  /-- Its text. -/
  program : SourceText
  /-- What it prints. -/
  output : List UInt8
  /-- The rank of its node. -/
  score : Int
  /-- The round that found it. -/
  rounds : Nat
  deriving DecidableEq

/-- How a synthesis ended. -/
inductive Ending where
  /-- With a program. -/
  | found (solution : Solution)
  /-- Every branch has died out. -/
  | exhausted (rounds : Nat)
  /-- The limit of rounds was reached. -/
  | stopped (rounds : Nat)
  deriving DecidableEq

/-- Why a synthesis gives no ending. -/
inductive Failure where
  /-- The search cannot begin. -/
  | setup (error : SetupError)
  /-- The state tree breaks down. -/
  | breakdown (reason : Breakdown)
  /-- The search ran for longer than was foreseen. -/
  | unfinished
  deriving DecidableEq

/-- The reported text. -/
def Failure.message : Failure → String
  | .setup error => error.message
  | .breakdown reason => reason.message
  | .unfinished => "the search ran on without end"

/-- A search through the state tree. -/
abbrev TargetSearcher (G : Type) := Searcher StateTree NodeId G

/-- A synthesis between two rounds. -/
structure Session (G : Type) where
  /-- Its parameters. -/
  config : SearchConfig
  /-- Its search. -/
  searcher : TargetSearcher G
  /-- Messages so far that nobody has taken yet. -/
  notes : Array Entry

/-- The message with which a search begins. -/
def openingNote (config : SearchConfig) : Entry :=
  ⟨.info, "Searching for " ++ QuotedText.quoteText config.target ++ " with beam width " ++
    toString config.width⟩

/-- The messages before a round, given its best node. -/
def roundNotes {G : Type} (searcher : TargetSearcher G) (best : Node) : List Entry :=
  [⟨.info, "Round " ++ toString searcher.round ++ ": " ++ toString searcher.frontier.length ++
      " nodes, best " ++ QuotedText.quoteText (LossyText.ofBytes best.output) ++ " (score " ++
      toString (rank best) ++ ")"⟩,
    ⟨.debug, toString searcher.state.live ++ " live nodes"⟩]

/-- Watch a search: stop it once the limit is behind it, and otherwise note
where it stands. -/
def watch {G : Type} (roundLimit : Option Nat) (notes : Array Entry)
    (searcher : TargetSearcher G) : Array Entry × Bool :=
  match roundLimit with
  | some limit =>
    if limit < searcher.round then (notes, false) else (noteRound notes searcher, true)
  | none => (noteRound notes searcher, true)
where
  /-- The messages with those before a round added. -/
  noteRound (notes : Array Entry) (searcher : TargetSearcher G) : Array Entry :=
    match searcher.best? with
    | none => notes
    | some id =>
      match searcher.state.node? id with
      | .ok node => notes ++ roundNotes searcher node
      | .error _ => notes

/-- The last message of a search that found no program. -/
def closingNote : Ending → Entry
  | .found solution =>
    ⟨.info, "Found a solution after " ++ toString solution.rounds ++ " rounds"⟩
  | .exhausted rounds =>
    ⟨.warn, "Search space exhausted after " ++ toString rounds ++ " rounds"⟩
  | .stopped rounds => ⟨.warn, "Stopped after " ++ toString rounds ++ " rounds"⟩

/-- The program that a goal stands for. -/
def solutionOf (tree : StateTree) (goal : NodeId) (rounds : Nat) : Except Breakdown Solution :=
  match tree.node? goal with
  | .error reason => .error reason
  | .ok node =>
    match tree.decisions goal with
    | .error reason => .error reason
    | .ok decisions => .ok ⟨.ofDecisions decisions, node.output, rank node, rounds⟩

namespace Session

variable {G : Type} [RandomSource G]

/-- Begin a synthesis. -/
def start (config : SearchConfig) (source : G) : Except Failure (Session G) :=
  match root ⟨#[], [], 0⟩ with
  | .error reason _ => .error (.breakdown reason)
  | .ok top tree =>
    match Searcher.ofRoot config.width tree top source with
    | .error error => .error (.setup error)
    | .ok searcher => .ok ⟨config, searcher, #[openingNote config]⟩

/-- The synthesis with one message more. -/
def close (session : Session G) (ending : Ending) : Ending × Session G :=
  match session with
  | ⟨config, searcher, notes⟩ => (ending, ⟨config, searcher, notes.push (closingNote ending)⟩)

/-- Go on for at most `limit` rounds of expansions of at most `phases` phases. No
ending means that the search is still under way. -/
def runWithin (phases limit : Nat) (session : Session G) :
    Except Failure (Option Ending × Session G) :=
  match session with
  | ⟨config, searcher, notes⟩ =>
    match searcher.run (config.search phases).policy (watch config.roundLimit) limit notes with
    | .error reason => .error (.breakdown reason)
    | .ok (ending, notes, ⟨width, tree, frontier, round, source⟩) =>
      let rounds := round - 1
      let session (tree : StateTree) : Session G :=
        ⟨config, ⟨width, tree, frontier, round, source⟩, notes⟩
      match ending with
      | .unfinished => .ok (none, session tree)
      | .exhausted => .ok ((session tree).close (.exhausted rounds) |>.map some id)
      | .stopped => .ok ((session tree).close (.stopped rounds) |>.map some id)
      | .found goal =>
        match solutionOf tree goal rounds with
        | .error reason => .error (.breakdown reason)
        | .ok solution =>
          match outcome (release goal tree) with
          | .error reason => .error (.breakdown reason)
          | .ok ((), tree) => .ok ((session tree).close (.found solution) |>.map some id)

/-- Go on for at most `limit` rounds. -/
def run (limit : Nat) (session : Session G) :
    Except Failure (Option Ending × Session G) := session.runWithin phaseLimit limit

end Session

/-- How long a synthesis may go on. Since every round decides one more cell on
every path, no search gets near it. -/
def roundBound : Nat := 1000000000000000000

/-- Search for a program that prints a target, for at most `rounds` rounds of
expansions of at most `phases` phases. The ending comes with the session in
which it was reached. -/
def synthesizeWithin {G : Type} [RandomSource G] (phases rounds : Nat) (config : SearchConfig)
    (source : G) : Except Failure (Ending × Session G) :=
  match Session.start config source with
  | .error failure => .error failure
  | .ok session =>
    match session.runWithin phases rounds with
    | .error failure => .error failure
    | .ok (none, _) => .error .unfinished
    | .ok (some ending, session) => .ok (ending, session)

/-- Search for a program that prints a target. -/
def synthesize {G : Type} [RandomSource G] (config : SearchConfig) (source : G) :
    Except Failure (Ending × Session G) := synthesizeWithin phaseLimit roundBound config source

end TernarySynth.Synthesis
