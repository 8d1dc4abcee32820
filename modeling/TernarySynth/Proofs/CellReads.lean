import TernarySynth.Proofs.LateDecision

/-!
# The cells that a run reads

A phase reads a cell if it cannot do without it: with the cell hidden, it waits for
it. Of two machines in step, the one whose memory is only partly decided waits for a
cell that the other reads, and as long as it does not wait every cell that the other
reads is decided.
-/

namespace TernarySynth.Proofs.CellReads

open TritWord CellCode MemoryImage TernarySynth.Cycle
open PhaseEffect LateDecision

/-- A memory with one cell hidden, which cannot be told from an undecided one. -/
structure Veiled (M : Type) where
  /-- The memory. -/
  memory : M
  /-- The hidden cell. -/
  hidden : Word

/-- What is read where a cell is hidden. -/
def veil (read : Word → Option Word) (hidden : Word) : Word → Option Word :=
  fun address => if address = hidden then none else read address

instance {M : Type} [Memory M] : Memory (Veiled M) where
  read veiled := veil (Memory.read veiled.memory) veiled.hidden
  write veiled address value := ⟨Memory.write veiled.memory address value, veiled.hidden⟩

section Phases

variable {M P : Type} [Memory M] [Channel P]

/-- The next phase of a machine reads a cell: with the cell hidden it waits for it. -/
def ReadsCell (lenient : Bool) (machine : Machine M P) (a : Word) : Prop :=
  (step lenient (Machine.mk machine.registers (Veiled.mk machine.memory a) machine.channel)).1 =
    .needsDecision a

/-- A machine reads a cell, in its next phase or in one after that. -/
inductive Reads (lenient : Bool) (a : Word) : Machine M P → Prop where
  /-- The next phase reads it. -/
  | now {machine : Machine M P} (reads : ReadsCell lenient machine a) : Reads lenient a machine
  /-- The next phase completes, and a later one reads it. -/
  | later {machine next : Machine M P} (runs : step lenient machine = (.completed .running, next))
      (reads : Reads lenient a next) : Reads lenient a machine

variable {lenient : Bool} {machine next : Machine M P} {a : Word}

/-- Whether a phase reads a cell is settled by registers and memory. -/
theorem readsCell_iff : ReadsCell lenient machine a ↔
    effect lenient machine.registers (veil (Memory.read machine.memory) a) = .wait a := by
  unfold ReadsCell
  rw [step_eq_perform]
  constructor
  · exact perform_needsDecision
  · intro he
    change (perform _ (effect lenient machine.registers (veil (Memory.read machine.memory) a))).1 = _
    rw [he]
    rfl

/-- A phase reads the cell at the code pointer, and at most the one at the data pointer
besides. -/
theorem readsCell_pointers : ReadsCell lenient machine machine.registers.c ∧
    ∀ a, ReadsCell lenient machine a → a = machine.registers.c ∨ a = machine.registers.d := by
  constructor
  · rw [readsCell_iff]
    exact effect_of_undecided lenient (if_pos rfl)
  · intro a hr
    exact (effect_wait (readsCell_iff.mp hr)).2

/-- A machine that runs on reads what its next phase reads and what it reads
afterwards. -/
theorem reads_iff_of_runs (runs : step lenient machine = (.completed .running, next)) :
    Reads lenient a machine ↔ ReadsCell lenient machine a ∨ Reads lenient a next := by
  constructor
  · rintro (hnow | ⟨hruns, hlater⟩)
    · exact .inl hnow
    · cases runs.symm.trans hruns
      exact .inr hlater
  · rintro (hnow | hlater)
    · exact .now hnow
    · exact .later runs hlater

/-- A phase that exits does not run on. -/
theorem stops_of_exits (exits : (step lenient machine).1 = .completed .exited) :
    (step lenient machine).1 ≠ .completed .running := by
  intro runs
  cases exits.symm.trans runs

/-- Any other machine reads what its next phase reads. -/
theorem reads_iff_of_stops (stops : (step lenient machine).1 ≠ .completed .running) :
    Reads lenient a machine ↔ ReadsCell lenient machine a := by
  constructor
  · rintro (hnow | ⟨hruns, -⟩)
    · exact hnow
    · exact absurd (congrArg Prod.fst hruns) stops
  · exact .now

end Phases

section Waiting

variable {read full : Word → Option Word} {a : Word}

/-- A memory that decides more may still lack a cell. -/
theorem veil_extends (h : ∀ b v, read b = some v → full b = some v) (ha : read a = none) (b v : Word)
    (hb : read b = some v) : veil full a b = some v := by
  have hne : b ≠ a := by
    rintro rfl
    rw [ha] at hb
    cases hb
  rw [veil, if_neg hne, h b v hb]

variable (h : ∀ b v, read b = some v → full b = some v) (ha : full a = none)
include h ha

/-- A need that waits for a cell goes on to do so until this cell is decided. -/
theorem needing_wait_extends {address : Word} {next next' : Word → Effect}
    (hnext : ∀ value, next value = .wait a → next' value = .wait a)
    (hw : needing read address next = .wait a) : needing full address next' = .wait a := by
  rcases needing_cases read address next with ⟨-, he⟩ | ⟨value, hv, he⟩
  · cases he.symm.trans hw
    rw [needing, ha]
  · rw [needing, h address value hv]
    exact hnext value (he.symm.trans hw)

/-- So does an instruction. -/
theorem executeEffect_wait_extends (registers : Registers) (instruction : Instruction)
    (hw : executeEffect registers read instruction = .wait a) :
    executeEffect registers full instruction = .wait a := by
  cases instruction with
  | moveD =>
    refine needing_wait_extends h ha ?_ hw
    intro value
    nofun
  | jump =>
    refine needing_wait_extends h ha ?_ hw
    intro value
    nofun
  | rotateRight =>
    refine needing_wait_extends h ha ?_ hw
    intro value
    nofun
  | combine =>
    refine needing_wait_extends h ha ?_ hw
    intro value
    nofun
  | output => cases hw
  | input => cases hw
  | exit => cases hw
  | noOp => cases hw

/-- And so does a phase. -/
theorem effect_wait_extends (lenient : Bool) (registers : Registers)
    (hw : effect lenient registers read = .wait a) : effect lenient registers full = .wait a := by
  unfold effect at hw ⊢
  cases hp : registers.phase with
  | fetch =>
    simp only [hp] at hw ⊢
    refine needing_wait_extends h ha (fun value hn => ?_) hw
    cases hd : decode lenient registers.c value with
    | none =>
      rw [hd] at hn
      cases hn
    | some instruction =>
      rw [hd] at hn
      exact executeEffect_wait_extends h ha registers instruction hn
  | advance =>
    simp only [hp] at hw ⊢
    refine needing_wait_extends h ha (fun value hn => ?_) hw
    cases hi : encrypt value with
    | none =>
      rw [hi] at hn
      cases hn
    | some encrypted =>
      rw [hi] at hn
      dsimp only at hn ⊢
      split at hn <;> cases hn

end Waiting

section Lockstep

variable {M F P : Type} [Memory M] [Memory F] [Channel P]
variable {decided : Word → Prop} {rest : Word → Option Word} {lenient : Bool} {a : Word}
variable {late : Machine M P} {early : Machine F P}

/-- A cell that the first machine waits for is read by the second. -/
theorem readsCell_of_waits (h : InStep decided rest late early)
    (hw : (step lenient late).1 = .needsDecision a) : ReadsCell lenient early a := by
  rw [readsCell_iff, h.registers_eq]
  obtain ⟨-, ha, -⟩ := step_needsDecision hw
  rw [step_eq_perform] at hw
  exact effect_wait_extends (veil_extends h.extends ha) (if_pos rfl) lenient _
    (perform_needsDecision hw)

/-- Where the first machine does not wait, what the second reads is decided. -/
theorem decided_of_readsCell (h : InStep decided rest late early)
    (hn : ∀ b, (step lenient late).1 ≠ .needsDecision b) (hr : ReadsCell lenient early a) :
    decided a := by
  cases ha : Memory.read late.memory a with
  | some value =>
    refine (h.decided_iff a).mp ?_
    rw [ha]
    rfl
  | none =>
    exfalso
    rw [readsCell_iff, h.registers_eq] at hr
    rcases effect_extends (veil_extends h.extends ha) lenient late.registers with ⟨b, he⟩ | he
    · refine hn b ?_
      rw [step_eq_perform, he]
      rfl
    · refine hn a ?_
      rw [step_eq_perform, ← he, hr]
      rfl

end Lockstep

end TernarySynth.Proofs.CellReads
