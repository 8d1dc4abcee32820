import TernarySynth.RandomSource

/-!
# Beam search

A beam search keeps one generation of nodes, its frontier. A round expands
every node of the frontier, ranks all children by score, and keeps the best of
them, at most as many as the beam is wide. Children that share the score of the
last place are shuffled first, so that the order in which children come up
never decides which of them are kept. What a node is, how it is expanded and
scored, and what is done with a discarded one, is left to a policy.
-/

namespace TernarySynth.BeamSearch

open RandomSource

/-- What expanding a node has led to. -/
inductive Expansion (N : Type) where
  /-- The node leads to a solution. It has no children. -/
  | goal (node : N)
  /-- The nodes of the next generation; none when the node has died out. -/
  | children (nodes : List N)

/-- The domain of a search. Every function works on the state of the domain,
and may break down with a reason. -/
structure Policy (σ ε N : Type) where
  /-- Expand a node of the frontier. -/
  expand : σ → N → Except ε (Expansion N × σ)
  /-- Rank a node; the higher the better. -/
  score : σ → N → Except ε Int
  /-- Take note that a node has been discarded. -/
  release : σ → N → Except ε σ

/-- A search between two rounds. -/
structure Searcher (σ N G : Type) where
  /-- How many nodes a round keeps at most. -/
  width : Nat
  /-- State of the domain. -/
  state : σ
  /-- Nodes of the present generation, the best first. -/
  frontier : List N
  /-- Number of the round about to run, from 1. -/
  round : Nat
  /-- Source of the choices among tied nodes. -/
  source : G

/-- Why a search cannot begin. -/
inductive SetupError where
  /-- A beam has to keep at least one node. -/
  | zeroWidth
  deriving DecidableEq

/-- The reported text. -/
def SetupError.message : SetupError → String
  | .zeroWidth => "beam width must be at least 1"

/-- What the expansions of a round have brought up, in order. -/
structure Harvest (N : Type) where
  /-- Solutions. -/
  goals : Array N
  /-- Children. -/
  pool : Array N

/-- Nothing yet. -/
def Harvest.empty {N : Type} : Harvest N := ⟨#[], #[]⟩

/-- Add the outcome of one expansion. -/
def Harvest.add {N : Type} (harvest : Harvest N) (expansion : Expansion N) : Harvest N :=
  match harvest, expansion with
  | ⟨goals, pool⟩, .goal node => ⟨goals.push node, pool⟩
  | ⟨goals, pool⟩, .children nodes => ⟨goals, nodes.foldl Array.push pool⟩

/-- The places given out in a round. -/
structure Selection (N : Type) where
  /-- Nodes of the next generation, the best first. -/
  kept : List N
  /-- Nodes without a place. -/
  dropped : List N

/-- How a run of rounds ended. -/
inductive RunEnd (N : Type) where
  /-- A round found this goal. -/
  | found (goal : N)
  /-- The frontier died out. -/
  | exhausted
  /-- The observer asked to stop. -/
  | stopped
  /-- The bound on the number of rounds was reached. -/
  | unfinished

namespace Policy

variable {σ ε N : Type} (policy : Policy σ ε N)

/-- Release nodes in order. -/
def releaseAll : List N → σ → Except ε σ
  | [], state => .ok state
  | node :: rest, state =>
    match policy.release state node with
    | .error reason => .error reason
    | .ok state => releaseAll rest state

/-- Expand nodes in order, releasing each of them afterwards. -/
def harvest : List N → Harvest N → σ → Except ε (Harvest N × σ)
  | [], found, state => .ok (found, state)
  | node :: rest, found, state =>
    match policy.expand state node with
    | .error reason => .error reason
    | .ok (expansion, state) =>
      match policy.release state node with
      | .error reason => .error reason
      | .ok state => harvest rest (found.add expansion) state

/-- Nodes with their scores, behind those that were scored before. -/
def scoreAll (state : σ) : List N → Array (Int × N) → Except ε (Array (Int × N))
  | [], scored => .ok scored
  | node :: rest, scored =>
    match policy.score state node with
    | .error reason => .error reason
    | .ok score => scoreAll state rest (scored.push (score, node))

end Policy

/-- Sort scored nodes by falling score; equal ones keep their order. -/
def rankByScore {N : Type} (scored : List (Int × N)) : List (Int × N) :=
  scored.mergeSort fun x y => decide (y.1 ≤ x.1)

/-- Shuffle the block of nodes, in a ranked list, whose score is `cutoff`. -/
def shuffleTies {N G : Type} [RandomSource G] (cutoff : Int) (ranked : List (Int × N))
    (source : G) : List (Int × N) × G :=
  let better := ranked.takeWhile fun x => decide (cutoff < x.1)
  let others := ranked.dropWhile fun x => decide (cutoff < x.1)
  let tied := others.takeWhile fun x => decide (cutoff ≤ x.1)
  let worse := others.dropWhile fun x => decide (cutoff ≤ x.1)
  match shuffle tied source with
  | (tied, source) => (better ++ (tied ++ worse), source)

/-- Give out the places of a round to the best of a ranked list. The source is
used only if there are more nodes than places. -/
def select {N G : Type} [RandomSource G] (width : Nat) (ranked : List (Int × N)) (source : G) :
    Selection N × G :=
  match ranked.drop width, ranked[width - 1]? with
  | _ :: _, some (cutoff, _) =>
    match shuffleTies cutoff ranked source with
    | (arranged, source) =>
      (⟨(arranged.take width).map Prod.snd, (arranged.drop width).map Prod.snd⟩, source)
  | _, _ => (⟨ranked.map Prod.snd, []⟩, source)

namespace Searcher

variable {σ ε N G ω : Type} [RandomSource G]

/-- A search whose first generation is one node. -/
def ofRoot (width : Nat) (state : σ) (root : N) (source : G) :
    Except SetupError (Searcher σ N G) :=
  if width = 0 then .error .zeroWidth else .ok ⟨width, state, [root], 1, source⟩

/-- The best node of the frontier. -/
def best? (searcher : Searcher σ N G) : Option N := searcher.frontier.head?

/-- Run one round. The goals that it finds are handed out; the children that
get a place are the next frontier, whether there was a goal or not. -/
def searchRound (policy : Policy σ ε N) (searcher : Searcher σ N G) :
    Except ε (List N × Searcher σ N G) :=
  match searcher with
  | ⟨width, state, frontier, round, source⟩ =>
    match policy.harvest frontier .empty state with
    | .error reason => .error reason
    | .ok (found, state) =>
      match policy.scoreAll state found.pool.toList #[] with
      | .error reason => .error reason
      | .ok scored =>
        match select width (rankByScore scored.toList) source with
        | (selection, source) =>
          match policy.releaseAll selection.dropped state with
          | .error reason => .error reason
          | .ok state =>
            .ok (found.goals.toList, ⟨width, state, selection.kept, round + 1, source⟩)

/-- Run rounds until one finds a goal, the frontier dies out or the observer
asks to stop, but at most `limit` of them. The observer sees the search before
every round; it keeps notes of its own and answers whether to go on. Of several
goals the first is returned and the others are released. -/
def run (policy : Policy σ ε N) (observer : ω → Searcher σ N G → ω × Bool) :
    Nat → ω → Searcher σ N G → Except ε (RunEnd N × ω × Searcher σ N G)
  | 0, notes, searcher => .ok (.unfinished, notes, searcher)
  | limit + 1, notes, searcher =>
    if searcher.frontier.isEmpty then .ok (.exhausted, notes, searcher)
    else
      match observer notes searcher with
      | (notes, false) => .ok (.stopped, notes, searcher)
      | (notes, true) =>
        match searcher.searchRound policy with
        | .error reason => .error reason
        | .ok ([], searcher) => run policy observer limit notes searcher
        | .ok (goal :: others, ⟨width, state, frontier, round, source⟩) =>
          match policy.releaseAll others state with
          | .error reason => .error reason
          | .ok state => .ok (.found goal, notes, ⟨width, state, frontier, round, source⟩)

end Searcher

end TernarySynth.BeamSearch
