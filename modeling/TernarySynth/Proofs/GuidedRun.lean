import TernarySynth.Proofs.Lookahead
import TernarySynth.Proofs.QuietRun

/-!
# Searching along a run

A machine of a search that is in step with a run over a full memory goes the way of
this run. It stays on track for a target that the run prints, and stops for the first
time where the run reads a cell that is not decided yet, or exits where the run does.
-/

namespace TernarySynth.Proofs.GuidedRun

open TritWord MemoryImage TernarySynth.Cycle Transcript TargetSearch
open LateDecision Lookahead CellReads QuietRun

variable {target : Target} {output : List UInt8}

/-- What begins an output that is the target can still become the target. -/
theorem onTrack_of_prefix {start : List UInt8} (met : target.isMet output = true)
    (h : start <+: output) : target.onTrack start = true := by
  have hletters : output.map foldCase = target.bytes.map foldCase := beq_iff_eq.mp met
  unfold Target.onTrack
  cases hl : start.getLast? with
  | none => rfl
  | some last =>
    rw [List.getLast?_eq_getElem?] at hl
    obtain ⟨hlt, -⟩ := List.getElem?_eq_some_iff.mp hl
    have hout : output[start.length - 1]? = some last := by
      obtain ⟨more, rfl⟩ := h
      rw [List.getElem?_append_left hlt, hl]
    have hfold : (target.bytes.map foldCase)[start.length - 1]? = some (foldCase last) := by
      rw [← hletters, List.getElem?_map, hout, Option.map_some]
    rw [List.getElem?_map, Option.map_eq_some_iff] at hfold
    obtain ⟨wanted, hwanted, hsame⟩ := hfold
    simp only [hwanted, hsame, beq_self_eq_true]

variable {decided : Word → Prop} {rest : Word → Option Word}

/-- Where the run that a machine of a search follows takes it next: to a machine that
asks for a cell, with the run at a phase that reads it. -/
structure Asks (target : Target) (output : List UInt8) (decided : Word → Prop)
    (rest : Word → Option Word) (n : Nat) (early : Machine Image Transcript) (a : Word)
    (last : LineMachine) : Prop where
  /-- The cell is undecided. -/
  undecided : ¬ decided a
  /-- The run goes on from there and is in step. -/
  goesOn : ∃ m ≤ n, ∃ next : Machine Image Transcript, Ends target.lenient output m next ∧
    InStep decided rest last next ∧ Reads target.lenient a next ∧
    ∀ b, decided b ∨ Reads target.lenient b early ↔ decided b ∨ Reads target.lenient b next

/-- A machine of a search that waits asks for a cell that the run reads at once. -/
theorem asks_of_waits {n : Nat} {early : Machine Image Transcript} {late : LineMachine} {a : Word}
    (ends : Ends target.lenient output n early) (h : InStep decided rest late early)
    (waits : step target.lenient late = (.needsDecision a, late)) (undecided : ¬ decided a)
    (phases : Nat) :
    fate target (phases + 1) late = some (.asks a late) ∧
      Asks target output decided rest n early a late := by
  have hout : (step target.lenient late).1 = .needsDecision a := congrArg Prod.fst waits
  constructor
  · rw [fate_of_stops (by rw [hout]; nofun), settle, hout]
  · exact ⟨undecided, n, Nat.le_refl n, early, ends, h, .now (readsCell_of_waits h hout),
      fun _ => Iff.rfl⟩

/-- A machine of a search that is in step with a run which prints the target asks for
a cell that the run reads, or it exits as the run does. The induction is on the phases
of the run. -/
theorem fate_of_ends {n : Nat} {early : Machine Image Transcript} {late : LineMachine}
    (ends : Ends target.lenient output n early) (h : InStep decided rest late early)
    (met : target.isMet output = true) {phases : Nat} (enough : n < phases) :
    (∃ last, fate target phases late = some (.succeeds last) ∧ last.channel.output = output ∧
      ∀ b, Reads target.lenient b early → decided b) ∨
    ∃ a last, fate target phases late = some (.asks a last) ∧
      Asks target output decided rest n early a last := by
  obtain ⟨phases, rfl⟩ : ∃ k, phases = k + 1 := Nat.exists_eq_succ_of_ne_zero (by omega)
  induction ends generalizing late phases with
  | @now early exits printed =>
    rcases step_inStep h target.lenient with ⟨a, hw, hd⟩ | ⟨ho, -⟩
    · obtain ⟨hf, hasks⟩ := asks_of_waits (.now exits printed) h hw hd phases
      exact .inr ⟨a, late, hf, hasks⟩
    · rw [exits] at ho
      have hprinted : late.channel.output = output := by
        rw [← h.channel_eq, printed]
      refine .inl ⟨late, ?_, hprinted, fun b hb => ?_⟩
      · rw [fate_of_stops (stops_of_exits ho.symm), settle, ← ho]
        dsimp only
        rw [hprinted, if_pos met]
      · rw [reads_iff_of_stops (stops_of_exits exits)] at hb
        exact decided_of_readsCell h (fun a hw => by cases ho.trans hw) hb
  | @later early next n runs ends ih =>
    rcases step_inStep h target.lenient with ⟨a, hw, hd⟩ | ⟨ho, hnext⟩
    · obtain ⟨hf, hasks⟩ := asks_of_waits (.later runs ends) h hw hd phases
      exact .inr ⟨a, late, hf, hasks⟩
    · rw [runs] at ho hnext
      obtain ⟨fewer, rfl⟩ : ∃ k, phases = k + 1 := Nat.exists_eq_succ_of_ne_zero (by omega)
      have hstep : step target.lenient late =
          (.completed .running, (step target.lenient late).2) := Prod.ext ho.symm rfl
      have htrack : target.onTrack (step target.lenient late).2.channel.output = true := by
        refine onTrack_of_prefix met ?_
        rw [← hnext.channel_eq]
        exact ends.output_prefix
      have hreads : ∀ b, decided b ∨ Reads target.lenient b early ↔
          decided b ∨ Reads target.lenient b next := by
        intro b
        rw [reads_iff_of_runs runs, ← or_assoc]
        refine or_congr_left ⟨fun hb => ?_, .inl⟩
        exact hb.elim id (decided_of_readsCell h fun a hw => by cases ho.trans hw)
      rw [fate_of_runs hstep, if_pos htrack]
      rcases ih hnext fewer (by omega) with ⟨last, hf, hprinted, hall⟩ | ⟨a, last, hf, hasks⟩
      · refine .inl ⟨last, hf, hprinted, fun b hb => ?_⟩
        exact ((hreads b).mp (.inr hb)).elim id (hall b)
      · obtain ⟨hd, m, hle, after, hends, hs, hread, hiff⟩ := hasks
        refine .inr ⟨a, last, hf, hd, m, Nat.le_succ_of_le hle, after, hends, hs, hread, fun b => ?_⟩
        rw [hreads, hiff]

end TernarySynth.Proofs.GuidedRun
