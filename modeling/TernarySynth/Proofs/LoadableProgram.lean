import TernarySynth.Proofs.FoundProgram

/-!
# Found programs that load

The text of a found program ends at the highest cell that its line has decided. A line
that exits has decided a cell behind the first, and then the text loads, or it is an exit
in the first cell and nothing else. Such a line has printed nothing, so only a search for
the empty target ends there, with a text that is one cell too short.
-/

namespace TernarySynth.Proofs.LoadableProgram

open TritWord CellCode StateTree SourceText RandomSource TargetSearch Synthesis
open CodeValues LineMachine ExploredLine DecidedText FoundText FoundProgram

/-- A text that loads, with all that loading asks of it where its bytes are printable. -/
structure Loadable (source : SourceText.SourceText) : Prop where
  /-- It gives an image. -/
  loads : ∃ image, source.load = .ok image
  /-- It has the two cells that the filler starts from. -/
  long : 2 ≤ source.cells.length
  /-- It fits into memory. -/
  fits : source.cells.length ≤ wordSize
  /-- Each of its bytes names an instruction at its cell, without printable cells being
  no-ops. -/
  decodes : ∀ a byte, source.cells[a]? = some byte → (decode false a byte.toNat).isSome = true

/-- The text of writable decisions is loadable. -/
theorem loadable_of_writable {decisions : List (Word × Word)} (h : Writable decisions) :
    Loadable (.ofDecisions decisions) := by
  obtain ⟨image, hload, -⟩ := load_ofDecisions h
  obtain ⟨hlong, hfits⟩ := span_bounds h
  have hlength : (SourceText.ofDecisions decisions).cells.length = SourceText.span decisions := by
    rw [cells_ofDecisions h, length_ofDecisions]
  refine ⟨⟨image, hload⟩, hlength ▸ hlong, hlength ▸ hfits, fun a byte hb => ?_⟩
  have ha : a < SourceText.span decisions := by
    rw [← hlength]
    exact (List.getElem?_eq_some_iff.mp hb).1
  rw [cells_ofDecisions h, getElem?_ofDecisions ha] at hb
  obtain ⟨instruction, hi, -⟩ := byteAt_encoded h a
  rw [← Option.some.inj hb, hi, decode_encode]
  rfl

/-- The text of an exit in the first cell and nothing else. -/
def loneExit : SourceText.SourceText := ⟨[81]⟩

/-- It is too short. -/
theorem load_loneExit : loneExit.load = .error (.tooShort 1) := rfl

/-- An exit as the only decision gives this text. -/
theorem ofDecisions_exit {nodes : List Node} {lenient : Bool} (h : Explored lenient nodes)
    (only : decidedOn nodes = [(0, encode 0 .exit)]) :
    SourceText.ofDecisions (StateTree.decisionsOf nodes) = loneExit := by
  have hperm := decisionsOf_perm h
  rw [only, List.perm_singleton] at hperm
  rw [hperm]
  rfl

variable {G : Type} [RandomSource G] {config : SearchConfig} {source : G}
variable {solution : Solution} {session : Session G} {phases rounds : Nat}

/-- Every program that a synthesis finds can be loaded, except for the one that exits in its
first cell and has no other. That one is found for the empty target only, and it is too
short. -/
theorem found_program_loads
    (found : synthesizeWithin phases rounds config source = .ok (.found solution, session)) :
    Loadable solution.program ∨
      (solution.program = loneExit ∧ solution.program.load = .error (.tooShort 1) ∧
        config.target = "" ∧ solution.output = []) := by
  obtain ⟨nodes, h⟩ := exists_foundOn found
  rcases wide_or_exit h.explored h.exits with wide | ⟨silent, only⟩
  · left
    rw [h.program_eq]
    exact loadable_of_writable (writable_of_wide h.explored wide)
  · right
    have hprogram : solution.program = loneExit :=
      h.program_eq.trans (ofDecisions_exit h.explored only)
    have houtput : solution.output = [] := h.output_eq.trans silent
    refine ⟨hprogram, by rw [hprogram, load_loneExit], ?_, houtput⟩
    by_contra nonempty
    have hmet := h.met
    rw [silent, sameLetters, beq_iff_eq, List.map_nil, eq_comm, List.map_eq_nil_iff] at hmet
    exact bytes_ne_nil nonempty hmet

/-- The program for a NUL is loadable. -/
theorem found_program_loads_of_nul :
    ∃ session,
      synthesizeWithin phaseLimit roundBound ⟨"\x00", 6, none, none, false⟩
          (Generator.ofNumbers []) = .ok (.found ⟨⟨[99, 80]⟩, [0], 8, 3⟩, session) ∧
        Loadable ⟨[99, 80]⟩ := by
  obtain ⟨session, found⟩ := nul_found
  refine ⟨session, found, ?_⟩
  rcases found_program_loads found with hloads | ⟨-, -, hempty, -⟩
  · exact hloads
  · exact absurd hempty (by decide)

/-- The empty target with eight nodes a round is found in a program that does not load. -/
theorem empty_target_not_loadable :
    ∃ session,
      synthesize ⟨"", 8, none, none, true⟩ (Generator.ofNumbers []) =
          .ok (.found ⟨loneExit, [], -1, 2⟩, session) ∧
        ¬∃ image, loneExit.load = .ok image := by
  have hanswer : (synthesize ⟨"", 8, none, none, true⟩
      (Generator.ofNumbers [])).toOption.map Prod.fst = some (.found ⟨loneExit, [], -1, 2⟩) := by
    cbv
  obtain ⟨session, found⟩ := exists_session hanswer
  refine ⟨session, found, ?_⟩
  rintro ⟨image, hload⟩
  cases load_loneExit.symm.trans hload

end TernarySynth.Proofs.LoadableProgram
