import Mathlib
import TernarySynth.Proofs.FoundText
import TernarySynth.Proofs.GuidedRun
import TernarySynth.Proofs.LoadedText
import TernarySynth.Proofs.RoundYield

/-!
# What pruning keeps

A program that prints the target can be found: on the way from the root there is,
for every cell that its run reads, an expansion with a child that decides the cell as
the program does, and the expansion after the last of them answers a goal. So a search
comes upon the program, unless a round has fewer places than children.
-/

namespace TernarySynth.Proofs.SolutionKept

open TritWord CellCode MemoryImage SourceText TernarySynth.Cycle Transcript ImageRun RandomSource
open StateTree BeamSearch TargetSearch
open PhaseEffect LateDecision TreeLine LineMachine ExploredLine Lookahead NodeExpansion
open ImageReplay TargetLedger ExpansionEnd FoundText CellReads QuietRun LoadedText
open ExpansionLines GuidedRun RoundYield

section Following

/-- The nodes of a line follow a run that prints `output` and reads `cells`: what they
have decided is as in the image at the start, and the machine of the line is in step
with what is left of the run. -/
structure Follows (target : Target) (output : List UInt8) (image : Image) (cells : Set Word)
    (nodes : List Node) : Prop where
  /-- Decided cells have their first values. -/
  initial : ∀ a v, (a, v) ∈ decidedOn nodes → image.read a = some v
  /-- The rest of the run reads the cells that are not decided. -/
  goesOn : ∃ n < target.phaseLimit, ∃ early : Machine Image Transcript,
    Ends target.lenient output n early ∧
    InStep (fun a => ∃ v, (a, v) ∈ decidedOn nodes) image.read (machineOf nodes) early ∧
    ∀ a, a ∈ cells ↔ (∃ v, (a, v) ∈ decidedOn nodes) ∨ Reads target.lenient a early

/-- What a search needs of a run to come upon it: it prints the target, and the cells
that it reads hold values that a search decides. -/
structure Findable (target : Target) (output : List UInt8) (image : Image) (cells : Set Word) :
    Prop where
  /-- It reads finitely many cells. -/
  finite : cells.Finite
  /-- They hold values of instructions. -/
  encoded : ∀ a ∈ cells, ∃ instruction, image.read a = some (encode a instruction)
  /-- Its output is the target. -/
  met : target.isMet output = true

variable {target : Target} {output : List UInt8} {image : Image} {cells : Set Word}
variable {nodes : List Node}

/-- A line has as many decisions as it has decided cells. -/
theorem ncard_decided {lenient : Bool} (h : Explored lenient nodes) :
    {a | ∃ v, (a, v) ∈ decidedOn nodes}.ncard = (decidedOn nodes).length := by
  have hset : {a | ∃ v, (a, v) ∈ decidedOn nodes} =
      (((decidedOn nodes).map Prod.fst).toFinset : Set Word) := by
    ext a
    simp only [Set.mem_ofPred_eq, List.coe_toFinset, List.mem_map, Prod.exists, exists_and_right,
      exists_eq_right]
  rw [hset, Set.ncard_coe_finset, List.toFinset_card_of_nodup h.nodup, List.length_map]

/-- At the root nothing is decided, and the whole run is ahead. -/
theorem follows_root {n : Nat} (enough : n < target.phaseLimit)
    (ends : Ends target.lenient output n
      (Machine.mk .initial image (Transcript.withoutInput [])))
    (hcells : ∀ a, a ∈ cells ↔
      Reads target.lenient a (Machine.mk .initial image (Transcript.withoutInput []))) :
    Follows target output image cells [.root] := by
  have hnone : ∀ a v, (a, v) ∉ decidedOn [Node.root] := fun _ _ => nofun
  have hroot : Explored target.lenient [.root] := .root
  refine ⟨fun a v hv => absurd hv (hnone a v), n, enough, _, ends,
    ⟨rfl, rfl, hroot.decided_iff, fun a hd => ?_, fun _ _ => rfl⟩, fun a => ?_⟩
  · obtain ⟨v, hv⟩ := hd
    exact absurd hv (hnone a v)
  · rw [hcells, or_iff_right]
    rintro ⟨v, hv⟩
    exact hnone a v hv

/-- A line that follows a run either has all cells of the run decided, and its machine
succeeds, or the machine asks for one more of them; the line that decides it as in the
image follows the run again. -/
theorem Follows.fate_cases (h : Follows target output image cells nodes)
    (explored : Explored target.lenient nodes) (findable : Findable target output image cells) :
    (∃ last, fate target target.phaseLimit (machineOf nodes) = some (.succeeds last) ∧
      last.channel.output = output ∧ (decidedOn nodes).length = cells.ncard ∧
      ∀ a, a ∈ cells ↔ ∃ v, (a, v) ∈ decidedOn nodes) ∨
    ∃ a last instruction, fate target target.phaseLimit (machineOf nodes) = some (.asks a last) ∧
      (decidedOn nodes).length < cells.ncard ∧
      ∀ nodes', machineOf nodes' = last.store a (encode a instruction) →
        decidedOn nodes' = (a, encode a instruction) :: decidedOn nodes →
        Follows target output image cells nodes' := by
  obtain ⟨initial, n, enough, early, ends, inStep, hcells⟩ := h
  rw [← ncard_decided explored]
  rcases fate_of_ends ends inStep findable.met enough with ⟨last, hf, hprinted, hall⟩ | ⟨a, last, hf, hasks⟩
  · have hiff : ∀ a, a ∈ cells ↔ ∃ v, (a, v) ∈ decidedOn nodes := by
      intro a
      rw [hcells, or_iff_left_of_imp (hall a)]
    refine .inl ⟨last, hf, hprinted, ?_, hiff⟩
    congr 1
    ext a
    exact (hiff a).symm
  · obtain ⟨hd, m, hle, next, hends, hs, hread, hiff⟩ := hasks
    have hmem : a ∈ cells := (hcells a).mpr ((hiff a).mpr (.inr hread))
    obtain ⟨instruction, hv⟩ := findable.encoded a hmem
    refine .inr ⟨a, last, instruction, hf, ?_, fun nodes' hmachine hentries => ?_⟩
    · -- The cell that is asked for is a cell of the run and was not decided before.
      refine Set.ncard_lt_ncard ⟨fun b hb => (hcells b).mpr (.inl hb), fun hsub => ?_⟩ findable.finite
      exact hd (hsub hmem)
    · have hnew : ∀ b, (∃ v, (b, v) ∈ decidedOn nodes') ↔
          (∃ v, (b, v) ∈ decidedOn nodes) ∨ a = b := by
        intro b
        rw [hentries]
        simp only [List.mem_cons, Prod.mk.injEq, exists_or, exists_and_left, exists_eq, and_true]
        rw [or_comm, eq_comm]
      refine ⟨fun b v hb => ?_, m, by omega, next, hends, ?_, fun b => ?_⟩
      · rw [hentries, List.mem_cons] at hb
        rcases hb with heq | hb
        · cases heq
          exact hv
        · exact initial b v hb
      · rw [hmachine]
        exact (hs.decide hd hv).congr (fun b => (hnew b).symm) fun _ _ => rfl
      · rw [hcells, hiff, hnew]
        constructor
        · exact Or.imp_left .inl
        · rintro ((hb | rfl) | hb)
          · exact .inl hb
          · exact .inr hread
          · exact .inr hb

end Following

/-- A goal has the output of a program, and its decisions are the first values of the
cells that the program reads. -/
structure Recovers (tree : StateTree) (goal : NodeId) (image : Image) (cells : Set Word)
    (output : List UInt8) : Prop where
  /-- The output is the same. -/
  output_eq : ∃ node, tree.node? goal = .ok node ∧ node.output = output
  /-- Decided are the cells that are read, as they are in the image. -/
  decisions_eq : ∃ decisions, tree.decisions goal = .ok decisions ∧
    ∀ a v, (a, v) ∈ decisions ↔ a ∈ cells ∧ image.read a = some v

section Descending

variable {target : Target} {output : List UInt8} {image : Image} {cells : Set Word}
variable {tree : StateTree} {held : Multiset NodeId} {id : NodeId} {line : List (NodeId × Node)}

/-- A goal with the decisions of a line that has followed a run to its end recovers
the program. -/
theorem recovers_of_line {goal : NodeId} {found : List (NodeId × Node)} {nodes : List Node}
    (h : Follows target output image cells nodes) (hline : Line tree goal found)
    (explored : Explored target.lenient (nodesOf found))
    (printed : (machineOf (nodesOf found)).channel.output = output)
    (entries : decidedOn (nodesOf found) = decidedOn nodes)
    (all : ∀ a, a ∈ cells ↔ ∃ v, (a, v) ∈ decidedOn nodes) :
    Recovers tree goal image cells output := by
  constructor
  · obtain ⟨node, rest, rfl, hn⟩ := hline.eq_cons
    exact ⟨node, hn, printed⟩
  · refine ⟨_, hline.decisions_eq, fun a v => ?_⟩
    rw [mem_decisionsOf explored, entries, all]
    constructor
    · intro hm
      exact ⟨⟨v, hm⟩, h.initial a v hm⟩
    · rintro ⟨⟨w, hw⟩, hv⟩
      rw [h.initial a w hw] at hv
      rwa [← Option.some.inj hv]

/-- The nodes that a number of expansions leads to: first a root is created, and then
one of the children is expanded of the node that was expanded before. -/
inductive Descent (target : Target) : Nat → StateTree → NodeId → Prop where
  /-- It begins at a root. -/
  | root {id : NodeId} {tree : StateTree} (made : root StateTree.empty = .ok id tree) :
      Descent target 0 tree id
  /-- It goes on to a child that the expansion of the node has answered. -/
  | child {n : Nat} {id kid : NodeId} {tree tree' : StateTree} {kids : List NodeId}
      (before : Descent target n tree id)
      (expanded : target.expand id tree = .ok (.children kids) tree') (mem : kid ∈ kids) :
      Descent target (n + 1) tree' kid

/-- From a node that follows a run there are expansions down to a goal: one for each
cell of the run that is not decided. The induction is on the number of these cells. -/
theorem descent_of_follows (findable : Findable target output image cells)
    (ground : Ground target.lenient tree held) (hm : id ∈ held)
    (hline : Line tree id line) (h : Follows target output image cells (nodesOf line))
    (descent : Descent target (decidedOn (nodesOf line)).length tree id) :
    ∃ last small goal tree', Descent target cells.ncard small last ∧
      target.expand last small = .ok (.goal goal) tree' ∧
      Recovers tree' goal image cells output := by
  induction hn : cells.ncard - (decidedOn (nodesOf line)).length using Nat.strong_induction_on
    generalizing tree held id line with
  | _ n ih =>
    rcases h.fate_cases (ground.explored hline) findable with
      ⟨last, hf, hprinted, hcount, hall⟩ | ⟨a, last, instruction, hf, hlt, hnext⟩
    · obtain ⟨goal, tree', ok, hleaves, hgoal⟩ := expand_succeeds ground hm hline hf
      obtain ⟨_, hmem, found, hfound, hlast, hentries⟩ := hgoal
      rw [List.mem_singleton.mp hmem] at hfound
      rw [hcount] at descent
      refine ⟨id, tree, goal, tree', descent, ok, ?_⟩
      refine recovers_of_line h hfound (hleaves.ground.explored hfound) ?_ hentries hall
      rw [hlast, hprinted]
    · obtain ⟨kids, tree', ok, hleaves, hall⟩ := expand_asks ground hm hline hf
      obtain ⟨kid, hkid, found, hfound, hmachine, hentries⟩ := hall instruction
      have hlength : (decidedOn (nodesOf found)).length =
          (decidedOn (nodesOf line)).length + 1 := by
        rw [hentries, List.length_cons]
      have hdescent := descent.child ok hkid
      rw [← hlength] at hdescent
      exact ih _ (by omega) hleaves.ground (Multiset.mem_add.mpr (.inl (Multiset.mem_coe.mpr hkid)))
        hfound (hnext _ hmachine hentries) hdescent rfl

end Descending

section Searching

variable {G : Type} [RandomSource G] {target : Target} {output : List UInt8} {image : Image}
variable {cells : Set Word} {searcher searcher' : Searcher StateTree NodeId G}

/-- The searches that come about from a root by a number of rounds, if every round
has had room for the children that it has brought up. -/
inductive Spacious (target : Target) : Nat → Searcher StateTree NodeId G → Prop where
  /-- A search begins with a root. -/
  | start {width : Nat} {top : NodeId} {tree : StateTree} {source : G}
      {searcher : Searcher StateTree NodeId G} (made : root StateTree.empty = .ok top tree)
      (begins : Searcher.ofRoot width tree top source = .ok searcher) : Spacious target 0 searcher
  /-- A round leads on. -/
  | round {n : Nat} {searcher searcher' : Searcher StateTree NodeId G} {found : List NodeId}
      (before : Spacious target n searcher) (room : HasRoom target searcher)
      (ran : searcher.searchRound target.policy = .ok (found, searcher')) :
      Spacious target (n + 1) searcher'

/-- A spacious search is under way. -/
theorem Spacious.underway {n : Nat} (h : Spacious target n searcher) :
    Underway target searcher := by
  induction h with
  | start made begins => exact .start made begins
  | round before room ran ih => exact ih.round target.phaseLimit ran

/-- Its frontier has at most eight times as many nodes after each round. -/
theorem Spacious.length_le {n : Nat} (h : Spacious target n searcher) :
    searcher.frontier.length ≤ Instruction.all.length ^ n := by
  induction h with
  | start made begins =>
    rw [(holds_ofRoot target made begins).2.1]
    exact Nat.le_refl _
  | round before room ran ih =>
    obtain ⟨goals, holds⟩ := before.underway.holds
    rw [pow_succ]
    exact (frontier_length_le holds ran).trans (Nat.mul_le_mul_right _ ih)

/-- So a beam that is wide enough for that makes a round spacious. -/
theorem Spacious.round_of_width {n : Nat} {found : List NodeId} (h : Spacious target n searcher)
    (wide : Instruction.all.length ^ (n + 1) ≤ searcher.width)
    (ran : searcher.searchRound target.policy = .ok (found, searcher')) :
    Spacious target (n + 1) searcher' := by
  obtain ⟨goals, holds⟩ := h.underway.holds
  refine h.round (hasRoom_of_length holds ((Nat.mul_le_mul_right _ h.length_le).trans ?_)) ran
  rwa [← pow_succ]

/-- A round with eight places is spacious, and a second one returns. -/
theorem spacious_nothing : ∃ (searcher searcher' : Searcher StateTree NodeId Generator)
    (found : List NodeId), Spacious ⟨[], false, 3⟩ 1 searcher ∧
      searcher.searchRound (Target.policy ⟨[], false, 3⟩) = .ok (found, searcher') := by
  let policy := Target.policy ⟨[], false, 3⟩
  obtain ⟨top, tree, made, rounds⟩ : ∃ top tree, root StateTree.empty = .ok top tree ∧
      ((Searcher.mk 8 tree [top] 1 (Generator.ofNumbers [])).searchRound policy >>=
        fun result => result.2.searchRound policy).isOk = true :=
    ⟨_, _, rfl, by cbv⟩
  have begins : Searcher.ofRoot 8 tree top (Generator.ofNumbers []) =
      .ok ⟨8, tree, [top], 1, Generator.ofNumbers []⟩ := rfl
  cases first : (Searcher.mk 8 tree [top] 1 (Generator.ofNumbers [])).searchRound policy with
  | error reason =>
    rw [first] at rounds
    cases rounds
  | ok result =>
    obtain ⟨found, searcher⟩ := result
    rw [first] at rounds
    change (searcher.searchRound policy).isOk = true at rounds
    cases second : searcher.searchRound policy with
    | error reason =>
      rw [second] at rounds
      cases rounds
    | ok result =>
      have hspacious := (Spacious.start made begins).round_of_width (Nat.le_refl 8) first
      exact ⟨searcher, result.2, result.1, hspacious, second⟩

/-- As long as there was room, there is a node in the frontier that follows the run,
with one decision a round. -/
theorem Spacious.follows {n : Nat} (h : Spacious target n searcher) (hle : n ≤ cells.ncard)
    (findable : Findable target output image cells)
    (start : Follows target output image cells [.root]) :
    ∃ id ∈ searcher.frontier, ∃ line, Line searcher.state id line ∧
      Follows target output image cells (nodesOf line) ∧ (decidedOn (nodesOf line)).length = n := by
  induction h with
  | start made begins =>
    obtain ⟨-, hfrontier, hline⟩ := holds_ofRoot target made begins
    refine ⟨_, ?_, _, hline, start, rfl⟩
    rw [hfrontier]
    exact List.mem_singleton_self _
  | round before room ran ih =>
    obtain ⟨goals, holds⟩ := before.underway.holds
    obtain ⟨id, hm, line, hline, hfollows, hlength⟩ := ih (Nat.le_of_succ_le hle)
    rcases hfollows.fate_cases (holds.ground.explored hline) findable with
      ⟨last, -, -, hcount, -⟩ | ⟨a, last, instruction, hf, -, hnext⟩
    · omega
    · obtain ⟨kid, hkid, found, hfound, hmachine, hentries⟩ :=
        ((searchRound_yields holds ran hm hline).2 room).child a last hf instruction
      refine ⟨kid, hkid, found, hfound, hnext _ hmachine hentries, ?_⟩
      rw [hentries, List.length_cons, hlength]

/-- A round that comes after one spacious round for each cell of the run finds the
program, and it need not have room itself. -/
theorem found_of_spacious {found : List NodeId} (h : Spacious target cells.ncard searcher)
    (findable : Findable target output image cells)
    (start : Follows target output image cells [.root])
    (ran : searcher.searchRound target.policy = .ok (found, searcher')) :
    ∃ goal ∈ found, Recovers searcher'.state goal image cells output := by
  obtain ⟨goals, holds⟩ := h.underway.holds
  obtain ⟨id, hm, line, hline, hfollows, hlength⟩ :=
    h.follows (Nat.le_refl _) findable start
  have hafter := (holds.searchRound ran).ground
  rcases hfollows.fate_cases (holds.ground.explored hline) findable with
    ⟨last, hf, hprinted, -, hall⟩ | ⟨a, last, instruction, -, hlt, -⟩
  · obtain ⟨goal, hgoal, line', hline', hmachine, hentries⟩ :=
      (searchRound_yields holds ran hm hline).1 last hf
    refine ⟨goal, hgoal, recovers_of_line hfollows hline' (hafter.explored hline') ?_
      hentries hall⟩
    rw [hmachine, hprinted]
  · omega

end Searching

section Programs

variable {P : Type} [Channel P]

/-- The cells that a run of an image reads. -/
def cellsRead (lenient : Bool) (image : Image) (channel : P) : Set Word :=
  {a | Reads lenient a (Machine.mk .initial image (Recorded.mk channel []))}

/-- A program that prints a target on a channel: a text of printable bytes loads, and
the run of its image exits with this record of calls. -/
structure Solves (target : Target) (source : SourceText) (image : Image) (channel : P)
    (limit : Nat) (last : Recorded P) : Prop where
  /-- All bytes that occupy cells are printable. -/
  printable : ∀ byte ∈ source.cells, isPrintable byte.toNat = true
  /-- The text loads to the image. -/
  loads : source.load = .ok image
  /-- The image exits. -/
  exits : ∃ execution, (Execution.ofImage target.lenient image).run limit (Recorded.mk channel []) =
    (.exited, execution, last)
  /-- It reads only cells of the text. -/
  inside : ∀ a ∈ cellsRead target.lenient image channel, a < source.cells.length
  /-- It has not asked for input. -/
  quiet : .input ∉ last.record
  /-- It has written the target. -/
  met : target.isMet (written last.record) = true

/-- The text that writes a NUL and exits, run for the three phases that it takes. -/
theorem solves_nul : ∃ image,
    Solves ⟨[0], false, 3⟩ ⟨[99, 80]⟩ image (Transcript.withoutInput []) 3
      ⟨Transcript.withoutInput [0], [.output 0]⟩ ∧
    cellsRead false image (Transcript.withoutInput []) = {0, 1} := by
  obtain ⟨image, hload⟩ : ∃ image, SourceText.load ⟨[99, 80]⟩ = .ok image := ⟨_, rfl⟩
  have hzero : image.read 0 = some 99 := (@read_of_load ⟨[99, 80]⟩ image hload 0 99 rfl).1
  have hone : image.read 1 = some 80 := (@read_of_load ⟨[99, 80]⟩ image hload 1 80 rfl).1
  have hkept : (image.write 0 86).read 1 = some 80 := by
    rw [Image.read_write, if_neg (by decide), hone]
  -- The three phases: the byte is written, its cell is encrypted, the machine exits.
  let start : Machine Image (Recorded Transcript) :=
    ⟨.initial, image, ⟨Transcript.withoutInput [], []⟩⟩
  let printed : Machine Image (Recorded Transcript) :=
    ⟨⟨0, 0, 0, .advance⟩, image, ⟨Transcript.withoutInput [0], [.output 0]⟩⟩
  let moved : Machine Image (Recorded Transcript) :=
    ⟨⟨0, 1, 1, .fetch⟩, image.write 0 86, ⟨Transcript.withoutInput [0], [.output 0]⟩⟩
  have hprint : step false start = (.completed .running, printed) := by
    have he : effect false start.registers image.read = .emit 0 ⟨0, 0, 0, .advance⟩ := by
      simp only [effect, start, Registers.initial, fetchEffect, needing, hzero]
      rfl
    rw [step_eq_perform]
    exact congrArg (perform start) he
  have hmove : step false printed = (.completed .running, moved) := by
    have he : effect false printed.registers image.read = .store 0 86 ⟨0, 1, 1, .fetch⟩ := by
      simp only [effect, printed, advanceEffect, needing, hzero]
      rfl
    rw [step_eq_perform]
    exact congrArg (perform printed) he
  have hexit : step false moved = (.completed .exited, moved) := by
    have he : effect false moved.registers (image.write 0 86).read = .halt := by
      simp only [effect, moved, fetchEffect, needing, hkept]
      rfl
    rw [step_eq_perform]
    exact congrArg (perform moved) he
  have hcells : cellsRead false image (Transcript.withoutInput []) = {0, 1} := by
    ext a
    change Reads false a start ↔ a = 0 ∨ a = 1
    have hstops := stops_of_exits (congrArg Prod.fst hexit)
    rw [reads_iff_of_runs hprint, reads_iff_of_runs hmove, reads_iff_of_stops hstops]
    constructor
    · rintro (hr | hr | hr)
      · exact .inl ((readsCell_pointers.2 a hr).elim id id)
      · exact .inl ((readsCell_pointers.2 a hr).elim id id)
      · exact .inr ((readsCell_pointers.2 a hr).elim id id)
    · rintro (rfl | rfl)
      · exact .inl readsCell_pointers.1
      · exact .inr (.inr readsCell_pointers.1)
  refine ⟨image, ⟨by decide +kernel, hload, ?_, ?_, by decide, by decide⟩, hcells⟩
  · refine ⟨executionOf false 3 moved, ?_⟩
    change (executionOf false 0 start).run 3 start.channel = _
    rw [Execution.run, executionStep_eq hprint]
    change (executionOf false 1 printed).run 2 printed.channel = _
    rw [Execution.run, executionStep_eq hmove]
    change (executionOf false 2 moved).run 1 moved.channel = _
    rw [Execution.run, executionStep_eq hexit]
  · intro a ha
    rw [hcells] at ha
    rcases ha with rfl | rfl <;> decide

/-- The text that exits at once. -/
theorem solves_nothing : ∃ image,
    Solves ⟨[], false, 3⟩ ⟨[81, 80]⟩ image (Transcript.withoutInput []) 1
      ⟨Transcript.withoutInput [], []⟩ ∧
    cellsRead false image (Transcript.withoutInput []) = {0} := by
  obtain ⟨image, hload⟩ : ∃ image, SourceText.load ⟨[81, 80]⟩ = .ok image := ⟨_, rfl⟩
  have hzero : image.read 0 = some 81 := (@read_of_load ⟨[81, 80]⟩ image hload 0 81 rfl).1
  let start : Machine Image (Recorded Transcript) :=
    ⟨.initial, image, ⟨Transcript.withoutInput [], []⟩⟩
  have hexit : step false start = (.completed .exited, start) := by
    have he : effect false start.registers image.read = .halt := by
      simp only [effect, start, Registers.initial, fetchEffect, needing, hzero]
      rfl
    rw [step_eq_perform]
    exact congrArg (perform start) he
  have hcells : cellsRead false image (Transcript.withoutInput []) = {0} := by
    ext a
    change Reads false a start ↔ a = 0
    rw [reads_iff_of_stops (stops_of_exits (congrArg Prod.fst hexit))]
    constructor
    · intro hr
      exact (readsCell_pointers.2 a hr).elim id id
    · rintro rfl
      exact readsCell_pointers.1
  refine ⟨image, ⟨by decide +kernel, hload, ⟨executionOf false 1 start, ?_⟩, ?_, by decide,
    by decide⟩, hcells⟩
  · change (executionOf false 0 start).run 1 start.channel = _
    rw [Execution.run, executionStep_eq hexit]
  · intro a ha
    rw [hcells] at ha
    rw [Set.mem_singleton_iff.mp ha]
    decide

variable {target : Target} {source : SourceText} {image : Image} {channel : P}
variable {limit : Nat} {last : Recorded P}

/-- A search can come upon the run of a program that prints the target. -/
theorem Solves.findable (h : Solves target source image channel limit last) :
    Findable target (written last.record) image (cellsRead target.lenient image channel) :=
  ⟨(Set.finite_lt_nat source.cells.length).subset h.inside,
    fun a hin => encoded_of_load h.loads h.printable (h.inside a hin), h.met⟩

/-- The root of a search follows this run. -/
theorem Solves.follows (h : Solves target source image channel limit last)
    (enough : limit ≤ target.phaseLimit) :
    Follows target (written last.record) image (cellsRead target.lenient image channel) [.root] := by
  obtain ⟨execution, hrun⟩ := h.exits
  obtain ⟨n, hn, hends, hreads⟩ :=
    @ends_of_run P _ target.lenient limit 0 execution (Machine.mk .initial image _) last hrun h.quiet
  exact follows_root (Nat.lt_of_lt_of_le hn enough) hends fun a => (hreads a).symm

/-- Pruning never loses a program that prints the target, if a node may run for as long
as the program does. For every cell that its run reads there is an expansion on the way
down from the root, and one more expansion answers a goal with the output of the program
and the first values of these cells. A search that has had room for all children in as
many rounds as there are such cells finds such a goal in its next round. -/
theorem solution_is_kept (h : Solves target source image channel limit last)
    (enough : limit ≤ target.phaseLimit) :
    (∃ id goal tree tree',
      Descent target (cellsRead target.lenient image channel).ncard tree id ∧
      target.expand id tree = .ok (.goal goal) tree' ∧
      Recovers tree' goal image (cellsRead target.lenient image channel) (written last.record)) ∧
    ∀ (G : Type) [RandomSource G] (searcher searcher' : Searcher StateTree NodeId G)
      (found : List NodeId),
      Spacious target (cellsRead target.lenient image channel).ncard searcher →
      searcher.searchRound target.policy = .ok (found, searcher') →
      ∃ goal ∈ found, Recovers searcher'.state goal image
        (cellsRead target.lenient image channel) (written last.record) := by
  have findable := h.findable
  have hstart := h.follows enough
  constructor
  · obtain ⟨id, tree, made, ground, hline⟩ := root_ground target.lenient
    obtain ⟨last, small, goal, tree', hdescent, ok, hgoal⟩ := descent_of_follows findable
      ground (Multiset.mem_singleton_self id) hline hstart (.root made)
    exact ⟨last, goal, small, tree', hdescent, ok, hgoal⟩
  · intro G _ searcher searcher' found hspacious ran
    exact found_of_spacious hspacious findable hstart ran

/-- The text that writes a NUL is found below two expansions, and the one that exits at
once by the second round of a search with eight places. -/
theorem solution_is_kept_of_nul :
    (∃ image last, Solves ⟨[0], false, 3⟩ ⟨[99, 80]⟩ image (Transcript.withoutInput []) 3 last ∧
      3 ≤ (⟨[0], false, 3⟩ : Target).phaseLimit ∧
      ∃ id goal tree tree', Descent ⟨[0], false, 3⟩ 2 tree id ∧
        Target.expand ⟨[0], false, 3⟩ id tree = .ok (.goal goal) tree' ∧
        Recovers tree' goal image {0, 1} [0]) ∧
    ∃ image last, Solves ⟨[], false, 3⟩ ⟨[81, 80]⟩ image (Transcript.withoutInput []) 1 last ∧
      1 ≤ (⟨[], false, 3⟩ : Target).phaseLimit ∧
      ∃ (searcher searcher' : Searcher StateTree NodeId Generator) (found : List NodeId),
        Spacious ⟨[], false, 3⟩ 1 searcher ∧
        searcher.searchRound (Target.policy ⟨[], false, 3⟩) = .ok (found, searcher') ∧
        ∃ goal ∈ found, Recovers searcher'.state goal image {0} [] := by
  constructor
  · obtain ⟨image, hsolves, hcells⟩ := solves_nul
    have hkept := (solution_is_kept hsolves (by decide)).1
    rw [hcells, Set.ncard_pair (by decide)] at hkept
    exact ⟨image, _, hsolves, by decide, hkept⟩
  · obtain ⟨image, hsolves, hcells⟩ := solves_nothing
    obtain ⟨searcher, searcher', found, hspacious, ran⟩ := spacious_nothing
    have hkept := (solution_is_kept hsolves (by decide)).2 Generator searcher searcher' found
    rw [hcells, Set.ncard_singleton] at hkept
    exact ⟨image, _, hsolves, by decide, searcher, searcher', found, hspacious, ran,
      hkept hspacious ran⟩

end Programs

end TernarySynth.Proofs.SolutionKept
