import TernarySynth.Proofs.Generations
import TernarySynth.Proofs.FoundText
import TernarySynth.Proofs.DecidedText

/-!
# No program twice

Two nodes at different places of a frontier stand for different programs: some cell
is decided by both, with different values. So the texts that their decisions are
written out as differ in that cell, and there is no memory image that fits both. The
same holds of the goals that one round finds.
-/

namespace TernarySynth.Proofs.ProgramsApart

open TritWord CellCode MemoryImage RandomSource StateTree BeamSearch TargetSearch SourceText
open CodeValues ExploredLine NodeExpansion FoundText DecidedText ExpansionEnd SearchBalance
open RoundLedger Generations

variable {entries others : List (Word × Word)} {tree : StateTree} {id other : NodeId}

/-- A memory image holds what was decided. -/
def Fits (image : Image) (entries : List (Word × Word)) : Prop :=
  ∀ a v, (a, v) ∈ entries → image.read a = some v

/-- No image holds two values in one cell. -/
theorem disjoint_of_conflict (h : Conflict entries others) :
    Disjoint {image | Fits image entries} {image | Fits image others} := by
  obtain ⟨a, v, w, hv, hw, hne⟩ := h
  refine Set.disjoint_left.mpr fun image hfits hfits' => hne ?_
  exact Option.some.inj ((hfits a v hv).symm.trans (hfits' a w hw))

/-- Two live nodes that stand for different programs. -/
structure Disagree (tree : StateTree) (id other : NodeId) (entries others : List (Word × Word)) :
    Prop where
  /-- What the first node builds on. -/
  decisions_eq : tree.decisions id = .ok entries
  /-- What the second node builds on. -/
  decisions_eq' : tree.decisions other = .ok others
  /-- Some cell is decided in both, with different values. -/
  conflict : ∃ a v w, SourceText.decided entries a = some v ∧
    SourceText.decided others a = some w ∧ v ≠ w
  /-- The programs are written out differently. -/
  text_ne : SourceText.ofDecisions entries ≠ SourceText.ofDecisions others
  /-- No memory image holds the cells of both. -/
  images : Disjoint {image | Fits image entries} {image | Fits image others}

/-- The text of an explored line has the decided value in its cell. -/
theorem byte_of_explored {lenient : Bool} {nodes : List Node} (h : Explored lenient nodes)
    {a v : Word} (hm : (a, v) ∈ decidedOn nodes) :
    (SourceText.ofDecisions (StateTree.decisionsOf nodes)).bytes[a]? = some (UInt8.ofNat v) ∧
      v < 256 := by
  obtain ⟨-, instruction, rfl⟩ := h.encoded hm
  have hprint := isPrintable_iff.mp (encode_printable a instruction)
  have hlt : encode a instruction < 256 := by
    unfold Word at *
    omega
  rw [getElem?_ofDecisions (lt_span ((mem_decisionsOf h _).mpr hm)), SourceText.byteAt,
    decided_eq h hm, Option.getD_some, Nat.mod_eq_of_lt hlt]
  exact ⟨rfl, hlt⟩

/-- Nodes in hand whose decisions are in conflict stand for different programs. -/
theorem disagree_of_apart {lenient : Bool} {held : Multiset NodeId}
    (hground : Ground lenient tree held) (h : Apart tree id other) :
    ∃ entries others, Disagree tree id other entries others := by
  obtain ⟨_, _, ⟨line, hline, rfl⟩, ⟨line', hline', rfl⟩, a, v, w, hv, hw, hne⟩ := h
  have hexp := hground.explored hline
  have hexp' := hground.explored hline'
  refine ⟨_, _, hline.decisions_eq, hline'.decisions_eq,
    ⟨a, v, w, decided_eq hexp hv, decided_eq hexp' hw, hne⟩, fun htext => hne ?_, ?_⟩
  · obtain ⟨hbyte, hlt⟩ := byte_of_explored hexp hv
    obtain ⟨hbyte', hlt'⟩ := byte_of_explored hexp' hw
    rw [htext] at hbyte
    have heq := congrArg UInt8.toNat (Option.some.inj (hbyte.symm.trans hbyte'))
    rwa [UInt8.toNat_ofNat', UInt8.toNat_ofNat', Nat.mod_eq_of_lt hlt, Nat.mod_eq_of_lt hlt']
      at heq
  · exact disjoint_of_conflict
      ⟨a, v, w, (mem_decisionsOf hexp _).mpr hv, (mem_decisionsOf hexp' _).mpr hw, hne⟩

/-- No two nodes of a frontier stand for the same program, at whatever places they
are, and no two goals of a round do. -/
theorem programs_apart {G : Type} [RandomSource G] {target : Target}
    {searcher : Searcher StateTree NodeId G} {goals : Multiset NodeId}
    (h : Course target searcher goals) :
    (searcher.frontier.Pairwise fun id other =>
      ∃ entries others, Disagree searcher.state id other entries others) ∧
    ∀ (phases : Nat) (found : List NodeId) (searcher' : Searcher StateTree NodeId G),
      searcher.searchRound (within target phases).policy = .ok (found, searcher') →
      found.Pairwise fun id other =>
        ∃ entries others, Disagree searcher'.state id other entries others := by
  have hsown := sown_of_course h
  constructor
  · obtain ⟨level, -, hgen⟩ := hsown.generation
    exact hgen.apart.imp (disagree_of_apart hsown.holds.ground)
  · intro phases found searcher' ran
    obtain ⟨hnext, level, -, hgen⟩ := hsown.searchRound ran
    exact hgen.apart.imp (disagree_of_apart hnext.holds.ground)

/-- A search for "Hi" that keeps two nodes stands for two programs after two rounds. -/
theorem programs_apart_of_two_rounds :
    ∃ (searcher : Searcher StateTree NodeId Generator) (id other : NodeId),
      Course ⟨[72, 105], true, 0⟩ searcher 0 ∧ searcher.frontier = [id, other] ∧
      ∃ entries others, Disagree searcher.state id other entries others := by
  let policy := (within ⟨[72, 105], true, 0⟩ 6).policy
  let begun : Searcher StateTree NodeId Generator :=
    ⟨2, ⟨#[⟨.root, 1⟩], [], 1⟩, [0], 1, Generator.ofNumbers []⟩
  have hstart : Course ⟨[72, 105], true, 0⟩ begun 0 := course_of_room (by decide) _
  have hrounds : ((begun.searchRound policy).bind fun first =>
      (first.2.searchRound policy).map fun last => (first.1, last.1, last.2.frontier)).toOption =
        some ([], [], [7, 6]) := by cbv
  obtain ⟨first, last, hfirst, hlast, hanswer⟩ := rounds_of_answer hrounds
  simp only [Prod.mk.injEq] at hanswer
  obtain ⟨hnone, hnone', hfrontier⟩ := hanswer
  have hcourse := (hstart.round 6 hfirst).round 6 hlast
  rw [hnone, hnone', Multiset.coe_nil, zero_add, zero_add] at hcourse
  have happart := (programs_apart hcourse).1
  rw [hfrontier] at happart
  exact ⟨last.2, 7, 6, hcourse, hfrontier, List.rel_of_pairwise_cons happart List.mem_cons_self⟩

end TernarySynth.Proofs.ProgramsApart
