import TernarySynth.CellCode

/-!
# Values and instructions

The value that names an instruction at an address is printable, and decoding it
there gives the instruction back: value and address add up to the same place of
the name table everywhere.
-/

namespace TernarySynth.Proofs.CodeValues

open TritWord CellCode

/-- Printable values are those from 33 to 126. -/
theorem isPrintable_iff {value : Word} : isPrintable value = true ↔ 33 ≤ value ∧ value ≤ 126 := by
  unfold isPrintable printableMin printableMax
  rw [Bool.and_eq_true, decide_eq_true_iff, decide_eq_true_iff]

/-- The substitution of executed cells gives printable values. -/
theorem cipherTable_printable : ∀ i < 94, isPrintable (cipherTable.getD i 0) = true := by
  decide +kernel

/-- An encrypted cell is printable. -/
theorem encrypt_printable {value encrypted : Word} (h : encrypt value = some encrypted) :
    isPrintable encrypted = true := by
  unfold encrypt at h
  split at h
  case isTrue hp =>
    have hr := isPrintable_iff.mp hp
    have hi : value - printableMin < 94 := by
      unfold printableMin Word at *
      omega
    rw [← Option.some.inj h]
    exact cipherTable_printable _ hi
  case isFalse => cases h

/-- A decided cell is printable. -/
theorem encode_printable (address : Word) (instruction : Instruction) :
    isPrintable (encode address instruction) = true := by
  rw [isPrintable_iff]
  unfold encode printableCount printableMin Word
  dsimp only
  split <;> omega

/-- Only printable values name instructions. -/
theorem printable_of_decode {lenient : Bool} {address value : Word} {instruction : Instruction}
    (h : decode lenient address value = some instruction) : isPrintable value = true := by
  unfold decode at h
  split at h
  case isTrue hp => exact hp
  case isFalse => cases h

/-- What names an instruction names it whether printable cells are no-ops or
not. -/
theorem decode_lenient {address value : Word} {instruction : Instruction}
    (h : decode false address value = some instruction) (lenient : Bool) :
    decode lenient address value = some instruction := by
  have hp := printable_of_decode h
  unfold decode at h ⊢
  rw [if_pos hp] at h ⊢
  split at h
  next => exact h
  next => cases h

/-- A printable value that names no instruction is a no-op where printable cells may be
no-ops. -/
theorem decode_nameless {address value : Word} (hp : isPrintable value = true)
    (h : decode false address value = none) : decode true address value = some .noOp := by
  unfold decode at h ⊢
  rw [if_pos hp] at h ⊢
  split at h
  next => cases h
  next => rfl

/-- Every instruction is tried. -/
theorem mem_all (instruction : Instruction) : instruction ∈ Instruction.all := by
  cases instruction <;> decide

/-- Base values are printable. -/
theorem base_printable (instruction : Instruction) :
    isPrintable instruction.base = true := by
  cases instruction <;> decide

/-- The value that names an instruction selects the same name at every address. -/
theorem nameIndex_encode (address : Word) (instruction : Instruction) :
    nameIndex address (encode address instruction) = instruction.base - printableMin := by
  have hb := isPrintable_iff.mp (base_printable instruction)
  unfold nameIndex encode printableMin printableCount Word at *
  dsimp only
  split <;> omega

/-- This name is that of the instruction. -/
theorem ofCodepoint_base (instruction : Instruction) :
    Instruction.ofCodepoint? (nameTable.getD (instruction.base - printableMin) 0) =
      some instruction := by
  cases instruction <;> decide

/-- Decoding inverts encoding. -/
theorem decode_encode (lenient : Bool) (address : Word) (instruction : Instruction) :
    decode lenient address (encode address instruction) = some instruction := by
  unfold decode
  rw [if_pos (encode_printable address instruction), nameIndex_encode, ofCodepoint_base]

end TernarySynth.Proofs.CodeValues
