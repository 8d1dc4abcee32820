import TernarySynth.Speculation
import TernarySynth.BeamSearch

/-!
# Programs for a target

A search for a program that prints a target. A node is run until it exits,
fails, prints something else than the target, or reads an undecided cell. Only
the last case branches, into one child for every instruction that the cell
could hold. Letters are compared without regard to ASCII case.
-/

namespace TernarySynth.TargetSearch

open TritWord CellCode StateTree Speculation BeamSearch

/-- What a program is searched for, and how long a node may run for. -/
structure Target where
  /-- The bytes to print. -/
  bytes : List UInt8
  /-- Whether printable cells that name no instruction are no-ops. -/
  lenient : Bool
  /-- Bound on the phases of one expansion. -/
  phaseLimit : Nat

/-- The lower-case form of an ASCII letter; other bytes are kept. -/
def foldCase (byte : UInt8) : UInt8 := if 65 ≤ byte ∧ byte ≤ 90 then byte + 32 else byte

/-- Whether two outputs are equal without regard to ASCII case. -/
def sameLetters (xs ys : List UInt8) : Bool := xs.map foldCase == ys.map foldCase

/-- Points for every byte of output. -/
def outputWeight : Int := 10

/-- The rank of a node: output counts for it, decisions against it. -/
def rank (node : Node) : Int := outputWeight * node.output.length - node.depth

namespace Target

/-- Whether an output can still become the target. All bytes but the last were
checked when they were written. -/
def onTrack (target : Target) (output : List UInt8) : Bool :=
  match output.getLast? with
  | none => true
  | some last =>
    match target.bytes[output.length - 1]? with
    | none => false
    | some wanted => foldCase last == foldCase wanted

/-- Whether an output is the target. -/
def isMet (target : Target) (output : List UInt8) : Bool := sameLetters output target.bytes

/-- Give back a node that was created on the way from `origin`. -/
def dropBetween (origin current : NodeId) : TreeM Unit :=
  if current = origin then pure () else release current

/-- Decide a cell in every possible way. -/
def branch (current : NodeId) (address : Word) : TreeM (List NodeId) :=
  Instruction.all.mapM fun instruction => decide current address instruction

/-- Run on from `current`, which was reached from `origin`, for at most that
many phases. -/
def expandFrom (target : Target) (origin : NodeId) : Nat → NodeId → TreeM (Expansion NodeId)
  | 0, _ => throw .unfinished
  | phases + 1, current => do
    match ← transition target.lenient current with
    | .failed _ =>
      dropBetween origin current
      return .children []
    | .exited =>
      let node ← get current
      if target.isMet node.output then
        if current = origin then retain current
        return .goal current
      else
        dropBetween origin current
        return .children []
    | .needsDecision address =>
      let children ← branch current address
      dropBetween origin current
      return .children children
    | .stepped child =>
      dropBetween origin current
      let node ← get child
      if target.onTrack node.output then expandFrom target origin phases child
      else
        dropBetween origin child
        return .children []

/-- Expand a node. Its own handle stays in use. -/
def expand (target : Target) (id : NodeId) : TreeM (Expansion NodeId) :=
  target.expandFrom id target.phaseLimit id

end Target

/-- The rank of a node by its handle. -/
def score (tree : StateTree) (id : NodeId) : Except Breakdown Int :=
  match tree.node? id with
  | .error breakdown => .error breakdown
  | .ok node => .ok (rank node)

/-- The outcome of an operation on a tree, as a beam search takes it. -/
def outcome {α : Type} : EStateM.Result Breakdown StateTree α → Except Breakdown (α × StateTree)
  | .ok value tree => .ok (value, tree)
  | .error breakdown _ => .error breakdown

/-- The policy of a search for a target. -/
def Target.policy (target : Target) : Policy StateTree Breakdown NodeId where
  expand tree id := outcome (target.expand id tree)
  score := score
  release tree id := (outcome (release id tree)).map Prod.snd

end TernarySynth.TargetSearch
