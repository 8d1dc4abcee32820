import Mathlib
import TernarySynth.Synthesis
import TernarySynth.Proofs.FoundText
import TernarySynth.Proofs.ImageReplay
import TernarySynth.Proofs.TargetLedger

/-!
# Found programs

A synthesis that ends with a program has come to a line whose machine exits
having printed the target. The text of the program is made of the decisions of
this line, so its image holds all of them from the start, and an execution of
the image is the run of the line over again.
-/

namespace TernarySynth.Proofs.FoundProgram

open TritWord CellCode MemoryImage TernarySynth.Cycle Transcript ByteStream ImageRun StateTree
open SourceText RandomSource BeamSearch TargetSearch Synthesis
open PhaseEffect LateDecision TreeLine LineMachine ExploredLine NodeExpansion TargetLedger
open DecidedText FoundText ImageReplay

variable {G : Type} {config : SearchConfig} {source : G}
variable {solution : Solution} {session session' : Session G} {phases rounds : Nat}

section Finding

/-- A synthesis begins with a root and nothing else. -/
theorem start_eq (h : Session.start config source = .ok session) :
    ∃ top tree, root StateTree.empty = .ok top tree ∧
      session = ⟨config, ⟨config.width, tree, [top], 1, source⟩, #[openingNote config]⟩ := by
  unfold Session.start at h
  split at h
  next => cases h
  next top tree hroot =>
    unfold Searcher.ofRoot at h
    by_cases hw : config.width = 0
    · rw [if_pos hw] at h
      cases h
    · rw [if_neg hw] at h
      cases h
      exact ⟨top, tree, hroot, rfl⟩

variable [RandomSource G]

/-- A session that ends with a program has made it from a goal of its search. -/
theorem runWithin_found
    (h : session.runWithin phases rounds = .ok (some (.found solution), session')) :
    ∃ goal notes searcher,
      session.searcher.run (session.config.search phases).policy
        (watch session.config.roundLimit) rounds session.notes =
          .ok (.found goal, notes, searcher) ∧
      solutionOf searcher.state goal (searcher.round - 1) = .ok solution := by
  obtain ⟨config, searcher, notes⟩ := session
  rw [Session.runWithin] at h
  split at h
  next => cases h
  next ending notes width tree frontier round source hrun =>
    cases ending with
    | unfinished => cases h
    | exhausted => cases h
    | stopped => cases h
    | found goal =>
      dsimp only at h
      split at h
      next => cases h
      next found hfound =>
        split at h
        next => cases h
        next =>
          cases h
          exact ⟨goal, notes, _, hrun, hfound⟩

/-- What a synthesis has found when it ends with a program: the nodes of a line
that exits having printed the target. -/
structure FoundOn (config : SearchConfig) (solution : Solution) (nodes : List Node) : Prop where
  /-- A search has made the line. -/
  explored : Explored config.lenient nodes
  /-- Its machine exits. -/
  exits : (step config.lenient (machineOf nodes)).1 = .completed .exited
  /-- It has printed the target. -/
  met : sameLetters (machineOf nodes).channel.output config.target.toUTF8.toList = true
  /-- The program is made of its decisions. -/
  program_eq : solution.program = .ofDecisions (StateTree.decisionsOf nodes)
  /-- What the program prints is its output. -/
  output_eq : solution.output = (machineOf nodes).channel.output

/-- A program that was found comes from such a line. -/
theorem exists_foundOn
    (found : synthesizeWithin phases rounds config source = .ok (.found solution, session)) :
    ∃ nodes, FoundOn config solution nodes := by
  unfold synthesizeWithin at found
  cases hstart : Session.start config source with
  | error failure =>
    rw [hstart] at found
    cases found
  | ok begun =>
    rw [hstart] at found
    dsimp only at found
    split at found
    next => cases found
    next => cases found
    next hrun =>
      cases found
      obtain ⟨top, tree, hroot, rfl⟩ := start_eq hstart
      obtain ⟨goal, notes, searcher, hsearch, hsolution⟩ := runWithin_found hrun
      let target := config.search phases
      obtain ⟨top', tree', hroot', hground, -⟩ := root_ground target.lenient
      cases hroot.symm.trans hroot'
      have hbegin : Holds target tree (([top] : List NodeId) + (0 : Multiset NodeId)) 0 := by
        refine ⟨?_, nofun⟩
        rw [add_zero, add_zero]
        exact hground
      have hend := (target_kept target).run hbegin hsearch
      obtain ⟨line, hline, hexits, hmet⟩ := hend.isGoal goal
        (Multiset.mem_add.mpr (.inl (Multiset.mem_singleton_self goal)))
      obtain ⟨node, rest, rfl, hnode⟩ := hline.eq_cons
      have hget : searcher.state.node? goal = .ok node := hline.node?_of_mem List.mem_cons_self
      rw [solutionOf, hget, hline.decisions_eq] at hsolution
      cases hsolution
      exact ⟨_, hend.ground.explored hline, hexits, hmet, rfl, rfl⟩

end Finding

section Replaying

/-- Executions of an image exit, after one and the same number of phases,
whatever they could read and wherever they write, and have written these bytes. -/
def Prints (lenient : Bool) (image : Image) (bytes : List UInt8) : Prop :=
  ∃ limit execution, ∀ (S : Type) [ByteSink S] (reader : List ReadEvent) (sink : S),
    Tireless sink →
      (Execution.ofImage lenient image).run limit (StreamChannel.mk reader sink) =
        (.exited, execution, ⟨reader, afterBytes sink bytes⟩)

variable {lenient relaxed : Bool} {nodes : List Node} {image : Image}

/-- An image that holds the decisions of a line prints what the line has
printed, where the line exits. -/
theorem prints_of_exits (h : Explored lenient nodes)
    (exits : (step lenient (machineOf nodes)).1 = .completed .exited)
    (holds : ∀ a v, (a, v) ∈ decidedOn nodes → image.read a = some v)
    (hr : lenient = true → relaxed = true) :
    Prints relaxed image (machineOf nodes).channel.output := by
  obtain ⟨n, running, hs⟩ := h.replay image holds
  rcases step_inStep hs lenient with ⟨a, hw, -⟩ | ⟨ho, hlast⟩
  · rw [hw] at exits
    cases exits
  · have hexits := ho.trans exits
    have hsame : (step lenient (machineOf nodes)).2 = machineOf nodes := by
      rw [step_eq_perform] at exits ⊢
      exact (perform_exited exits).2
    let last := (step lenient (calls lenient n ⟨.initial, image, Transcript.withoutInput []⟩).2).2
    have houtput : last.channel.output = (machineOf nodes).channel.output := by
      rw [hlast.channel_eq, hsame]
    refine ⟨n + 1, executionOf relaxed (0 + n + 1) last, fun S _ reader sink ht => ?_⟩
    have hrun := run_onStream reader ht hr rfl running hexits 0
    dsimp only [onStream] at hrun
    rw [houtput] at hrun
    exact hrun

/-- The image of a program that was found has all decisions of its line. -/
theorem FoundOn.load_eq (h : FoundOn config solution nodes)
    (printed : (machineOf nodes).channel.output ≠ []) :
    ∃ image, solution.program.load = .ok image ∧
      SourceText.load ⟨(solution.program.display ++ "\n").toUTF8.toList⟩ = .ok image ∧
      ∀ a v, (a, v) ∈ decidedOn nodes → image.read a = some v := by
  have hwide := (wide_or_exit h.explored h.exits).resolve_right fun hexit => printed hexit.1
  have hwritable := writable_of_wide h.explored hwide
  obtain ⟨image, hload, hread⟩ := load_ofDecisions hwritable
  rw [h.program_eq]
  refine ⟨image, hload, (load_printed hwritable).trans hload, fun a v hm => ?_⟩
  have hlt := lt_span ((mem_decisionsOf h.explored (a, v)).mpr hm)
  rw [hread a hlt, decided_eq h.explored hm, Option.getD_some]

/-- A target that is not empty has bytes. -/
theorem bytes_ne_nil {text : String} (h : text ≠ "") : text.toUTF8.toList ≠ [] := by
  rw [toList_eq]
  intro hnil
  have hsize : text.toUTF8.size = 0 := congrArg List.length hnil
  exact h (String.utf8ByteSize_eq_zero_iff.mp hsize)

/-- A program that a synthesis has found prints the target, up to the case of
letters. Its text loads, and so does the print of the text with a newline at its
end, to the same image. Every execution of the image exits having written what
the search saw the program print; printable cells may be no-ops then, and have to
be if they were in the search. -/
theorem found_program_prints [RandomSource G] (nonempty : config.target ≠ "")
    (found : synthesizeWithin phases rounds config source = .ok (.found solution, session)) :
    solution.output.map foldCase = config.target.toUTF8.toList.map foldCase ∧
      ∃ image, solution.program.load = .ok image ∧
        SourceText.load ⟨(solution.program.display ++ "\n").toUTF8.toList⟩ = .ok image ∧
        ∀ lenient, (config.lenient = true → lenient = true) →
          Prints lenient image solution.output := by
  obtain ⟨nodes, h⟩ := exists_foundOn found
  have hmet : solution.output.map foldCase = config.target.toUTF8.toList.map foldCase := by
    rw [h.output_eq]
    exact beq_iff_eq.mp h.met
  have hprinted : (machineOf nodes).channel.output ≠ [] := by
    intro hnil
    rw [h.output_eq, hnil, List.map_nil, eq_comm, List.map_eq_nil_iff] at hmet
    exact bytes_ne_nil nonempty hmet
  obtain ⟨image, hload, hprint, holds⟩ := h.load_eq hprinted
  refine ⟨hmet, image, hload, hprint, fun lenient hr => ?_⟩
  rw [h.output_eq]
  exact prints_of_exits h.explored h.exits holds hr

/-- An ending that is the answer comes with a session. -/
theorem exists_session {S : Type} {answer : Except Failure (Ending × S)} {ending : Ending}
    (h : answer.toOption.map Prod.fst = some ending) :
    ∃ session, answer = .ok (ending, session) := by
  cases answer with
  | error fault => cases h
  | ok reached =>
    obtain ⟨other, session⟩ := reached
    cases h
    exact ⟨session, rfl⟩

/-- The search for a NUL with six nodes a round, whose random source gives zeros only, finds
a program of two cells. -/
theorem nul_found : ∃ session, synthesize ⟨"\x00", 6, none, none, false⟩ (Generator.ofNumbers []) =
    .ok (.found ⟨⟨[99, 80]⟩, [0], 8, 3⟩, session) := by
  have hanswer : (synthesize ⟨"\x00", 6, none, none, false⟩
      (Generator.ofNumbers [])).toOption.map Prod.fst =
        some (.found ⟨⟨[99, 80]⟩, [0], 8, 3⟩) := by cbv
  exact exists_session hanswer

/-- The same on the search for a NUL with six nodes a round, whose random source
gives zeros only. A sink that takes everything then holds what was found. -/
theorem found_program_prints_of_nul :
    ∃ session image,
      "\x00" ≠ "" ∧
      synthesize ⟨"\x00", 6, none, none, false⟩ (Generator.ofNumbers []) =
        .ok (.found ⟨⟨[99, 80]⟩, [0], 8, 3⟩, session) ∧
      SourceText.load ⟨[99, 80]⟩ = .ok image ∧
      SourceText.load ⟨(SourceText.display ⟨[99, 80]⟩ ++ "\n").toUTF8.toList⟩ = .ok image ∧
      ∀ lenient reader, ∃ limit execution,
        (Execution.ofImage lenient image).run limit
            (StreamChannel.mk reader ScriptedSink.reliable) =
          (.exited, execution, ⟨reader, { ScriptedSink.reliable with bytes := #[0] }⟩) := by
  have hnonempty : "\x00" ≠ "" := by decide
  obtain ⟨session, found⟩ := nul_found
  obtain ⟨-, image, hload, hprint, hruns⟩ := found_program_prints hnonempty found
  refine ⟨session, image, hnonempty, found, hload, hprint, fun lenient reader => ?_⟩
  obtain ⟨limit, execution, hrun⟩ := hruns lenient fun h => Bool.noConfusion h
  have hreliable := hrun ScriptedSink reader ScriptedSink.reliable tireless_reliable
  rw [afterBytes_reliable] at hreliable
  exact ⟨limit, execution, hreliable⟩

end Replaying

end TernarySynth.Proofs.FoundProgram
