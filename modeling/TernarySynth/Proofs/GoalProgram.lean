import TernarySynth.Proofs.SolutionKept
import TernarySynth.Proofs.StreamedRun

/-!
# The program of a goal

A line that exits with the target as its output is a program: its decisions, with a no-op
in the second cell where that was not decided, are a text that loads, and the run of its
image is the run of the line. Since the machine of the line has never waited, the run reads
none but the cells that were decided.
-/

namespace TernarySynth.Proofs.GoalProgram

open TritWord CellCode MemoryImage SparseMemory SourceText TernarySynth.Cycle Transcript
open ByteStream ImageRun StateTree TargetSearch
open PhaseEffect LateDecision LineMachine ExploredLine ImageReplay DecidedText FoundText
open CellReads QuietRun SolutionKept StreamedRun

section Runs

variable {M F : Type} [Memory M] [Memory F] [LawfulMemory M] [LawfulMemory F]
variable {decided : Word → Prop} {rest : Word → Option Word} {lenient : Bool} {n : Nat}
variable {late : Machine M Transcript} {early : Machine F Transcript}

/-- Where a machine exits that has never waited, the machine in step with it exits after as
many phases, and has read none but the decided cells. -/
theorem ends_of_calls (h : InStep decided rest late early)
    (running : ∀ outcome ∈ (calls lenient n late).1, outcome = .completed .running)
    (exits : (step lenient (calls lenient n late).2).1 = .completed .exited) :
    Ends lenient (calls lenient n late).2.channel.output n early ∧
      ∀ a, Reads lenient a early → decided a := by
  induction n generalizing late early with
  | zero =>
    dsimp only [calls] at exits ⊢
    have busy : ∀ b, (step lenient late).1 ≠ .needsDecision b := by
      intro b hw
      cases hw.symm.trans exits
    rcases step_inStep h lenient with ⟨a, hw, -⟩ | ⟨ho, -⟩
    · exact absurd (congrArg Prod.fst hw) (busy a)
    · have hexits := ho.trans exits
      refine ⟨.now hexits (congrArg Transcript.output h.channel_eq), fun a hr => ?_⟩
      rw [reads_iff_of_stops (stops_of_exits hexits)] at hr
      exact decided_of_readsCell h busy hr
  | succ n ih =>
    simp only [calls, List.mem_cons, forall_eq_or_imp] at running exits ⊢
    obtain ⟨hfirst, hothers⟩ := running
    have busy : ∀ b, (step lenient late).1 ≠ .needsDecision b := by
      intro b hw
      cases hw.symm.trans hfirst
    rcases step_inStep h lenient with ⟨a, hw, -⟩ | ⟨ho, hs⟩
    · exact absurd (congrArg Prod.fst hw) (busy a)
    · obtain ⟨hends, hreads⟩ := ih hs hothers exits
      have hruns : step lenient early = (.completed .running, (step lenient early).2) :=
        Prod.ext (ho.trans hfirst) rfl
      refine ⟨.later hruns hends, fun a hr => ?_⟩
      rw [reads_iff_of_runs hruns] at hr
      rcases hr with hnow | hlater
      · exact decided_of_readsCell h busy hnow
      · exact hreads a hlater

end Runs

section Lines

variable {target : Target} {nodes : List Node} {image : Image}

/-- A memory of the decisions of a line has them in their cells and nothing else. -/
theorem read_decisions {lenient : Bool} (h : Explored lenient nodes) (a : Word) :
    (∀ v, (a, v) ∈ decidedOn nodes →
      (SparseMemory.mk (StateTree.decisionsOf nodes)).read a = some v) ∧
    (((SparseMemory.mk (StateTree.decisionsOf nodes)).read a).isSome ↔
      ∃ v, (a, v) ∈ decidedOn nodes) := by
  have hholds : ∀ v, (a, v) ∈ decidedOn nodes →
      (SparseMemory.mk (StateTree.decisionsOf nodes)).read a = some v :=
    fun v hv => decided_eq h hv
  refine ⟨hholds, fun hs => ?_, ?_⟩
  · obtain ⟨v, hv⟩ := Option.isSome_iff_exists.mp hs
    rw [SparseMemory.read, Option.map_eq_some_iff] at hv
    obtain ⟨⟨cell, value⟩, hfound, rfl⟩ := hv
    have hkey := List.find?_some hfound
    obtain rfl : cell = a := beq_iff_eq.mp hkey
    exact ⟨value, (mem_decisionsOf h _).mp (List.mem_of_find?_eq_some hfound)⟩
  · rintro ⟨v, hv⟩
    rw [hholds v hv]
    rfl

/-- An image that holds the decisions of a line that exits gives the run of the line: it
exits with the same output, and reads none but the decided cells. -/
theorem ends_of_line {lenient : Bool} (h : Explored lenient nodes)
    (exits : (step lenient (machineOf nodes)).1 = .completed .exited)
    (holds : ∀ a v, (a, v) ∈ decidedOn nodes → image.read a = some v) :
    ∃ n, Ends lenient (machineOf nodes).channel.output n
        (Machine.mk .initial image (Transcript.withoutInput [])) ∧
      ∀ a, Reads lenient a (Machine.mk .initial image (Transcript.withoutInput [])) →
        ∃ v, (a, v) ∈ decidedOn nodes := by
  let full : SparseMemory := ⟨StateTree.decisionsOf nodes⟩
  obtain ⟨n, running, hs⟩ := h.replay full fun a v hv => (read_decisions h a).1 v hv
  have hlast : (step lenient (calls lenient n
      (Machine.mk .initial full (Transcript.withoutInput []))).2).1 = .completed .exited := by
    rcases step_inStep hs lenient with ⟨a, hw, -⟩ | ⟨ho, -⟩
    · cases (congrArg Prod.fst hw).symm.trans exits
    · exact ho.trans exits
  -- The image is in step with the decisions alone, which never make a phase wait.
  have hstart : InStep (fun a => ∃ v, (a, v) ∈ decidedOn nodes) image.read
      (Machine.mk .initial full (Transcript.withoutInput []))
      (Machine.mk .initial image (Transcript.withoutInput [])) := by
    refine ⟨rfl, rfl, fun a => (read_decisions h a).2, fun a hd => ?_, fun _ _ => rfl⟩
    obtain ⟨v, hv⟩ := hd
    exact (holds a v hv).trans ((read_decisions h a).1 v hv).symm
  obtain ⟨hends, hreads⟩ := ends_of_calls hstart running hlast
  rw [hs.channel_eq] at hends
  exact ⟨n, hends, hreads⟩

/-- The decisions of a line, and a no-op in the second cell if that is not one of them. -/
def paddedDecisions (nodes : List Node) : List (Word × Word) :=
  StateTree.decisionsOf nodes ++ [(1, encode 1 .noOp)]

/-- They can be written out. -/
theorem writable_padded {lenient : Bool} (h : Explored lenient nodes) :
    Writable (paddedDecisions nodes) := by
  have hmem : ∀ a v, (a, v) ∈ paddedDecisions nodes →
      (a, v) ∈ decidedOn nodes ∨ (a, v) = (1, encode 1 .noOp) := by
    intro a v hm
    rcases List.mem_append.mp hm with hm | hm
    · exact .inl ((mem_decisionsOf h _).mp hm)
    · exact .inr (List.mem_singleton.mp hm)
  refine ⟨fun a v hm => ?_, fun a v hm => ?_, 1, _, List.mem_append_right _ List.mem_cons_self,
    Nat.le.refl⟩
  · rcases hmem a v hm with hm | heq
    · exact (h.encoded hm).2
    · cases heq
      exact ⟨.noOp, rfl⟩
  · rcases hmem a v hm with hm | heq
    · exact (h.encoded hm).1
    · cases heq
      decide

/-- The first entry for a cell is the decision, if there is one. -/
theorem decided_padded {lenient : Bool} (h : Explored lenient nodes) {a v : Word}
    (hm : (a, v) ∈ decidedOn nodes) : SourceText.decided (paddedDecisions nodes) a = some v := by
  have hfirst := decided_eq h hm
  rw [SourceText.decided, Option.map_eq_some_iff] at hfirst
  obtain ⟨entry, hfound, hvalue⟩ := hfirst
  rw [SourceText.decided, paddedDecisions, List.find?_append, hfound, Option.some_or,
    Option.map_some, hvalue]

variable {S : Type} [ByteSink S] {sink : S}

/-- A line that exits with the target as its output is a program for the target, on
whatever streams. It reads none but the cells that the line has decided. -/
theorem solves_of_line (h : Explored target.lenient nodes)
    (exits : (step target.lenient (machineOf nodes)).1 = .completed .exited)
    (met : target.isMet (machineOf nodes).channel.output = true) (reader : List ReadEvent)
    (tireless : Tireless sink) :
    ∃ source image limit last,
      Solves target source image (StreamChannel.mk reader sink) limit last ∧
      ∀ a ∈ cellsRead target.lenient image (StreamChannel.mk reader sink),
        ∃ v, (a, v) ∈ decidedOn nodes := by
  have hwritable := writable_padded h
  obtain ⟨image, hload, hread⟩ := load_ofDecisions hwritable
  have hspan : ∀ a v, (a, v) ∈ decidedOn nodes → a < SourceText.span (paddedDecisions nodes) :=
    fun a v hm => lt_span (List.mem_append_left _ ((mem_decisionsOf h _).mpr hm))
  have holds : ∀ a v, (a, v) ∈ decidedOn nodes → image.read a = some v := by
    intro a v hm
    rw [hread a (hspan a v hm), decided_padded h hm, Option.getD_some]
  obtain ⟨n, hends, hreads⟩ := ends_of_line h exits holds
  obtain ⟨⟨execution, hrun⟩, hsame⟩ := run_of_ends reader tireless hends rfl 0
  have hcells : ∀ a ∈ cellsRead target.lenient image (StreamChannel.mk reader sink),
      ∃ v, (a, v) ∈ decidedOn nodes := fun a ha => hreads a ((hsame a).mp ha)
  refine ⟨.ofDecisions (paddedDecisions nodes), image, n + 1, _,
    ⟨fun byte hb => ?_, hload, ⟨execution, hrun⟩, fun a ha => ?_, quiet_callsOf _, ?_⟩, hcells⟩
  · rw [cells_ofDecisions hwritable] at hb
    exact printable_of_mem hwritable hb
  · obtain ⟨v, hv⟩ := hcells a ha
    rw [cells_ofDecisions hwritable, length_ofDecisions]
    exact hspan a v hv
  · rwa [written_callsOf]

end Lines

end TernarySynth.Proofs.GoalProgram
