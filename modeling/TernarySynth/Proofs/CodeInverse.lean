import TernarySynth.Proofs.FixedRange
import TernarySynth.Proofs.LoadedText

/-!
# Naming an instruction and reading the name

At every address each instruction has exactly one value that names it, and the value is
found in 16-bit arithmetic without leaving its range. Where nameless cells are no-ops, all
printable values name something, and those that name an instruction already still name it.
-/

namespace TernarySynth.Proofs.CodeInverse

open TritWord CellCode FixedRange CodeValues LoadedText

/-- The value that names an instruction at an address, every step of it in 16 bits. -/
def checkedEncode (address : Word) (instruction : Instruction) : Option Int := do
  let sum ← unsigned16.fit ((instruction.base : Nat) + 94)
  let difference ← unsigned16.fit (sum - (address : Nat) % 94)
  let shifted := difference % 94
  if shifted < 33 then unsigned16.fit (shifted + 94) else return shifted

/-- It is found without leaving the range, at every address. -/
theorem checkedEncode_eq (address : Word) (instruction : Instruction) :
    checkedEncode address instruction = some ((encode address instruction : Nat) : Int) := by
  have hbase := isPrintable_iff.mp (base_printable instruction)
  unfold checkedEncode encode printableCount printableMin
  generalize instruction.base = base at hbase ⊢
  unfold Word at *
  have hshifted : ((base : Int) + 94 - (address : Int) % 94) % 94 =
      ((base + 94 - address % 94) % 94 : Nat) := by omega
  rw [bind_unsigned16 (by omega) (by omega), bind_unsigned16 (by omega) (by omega)]
  dsimp only
  rw [hshifted]
  have hlt : (base + 94 - address % 94) % 94 < 94 := Nat.mod_lt _ (by decide)
  generalize (base + 94 - address % 94) % 94 = shifted at hlt ⊢
  by_cases hlow : shifted < 33
  · have hlow' : (shifted : Int) < 33 := by omega
    rw [if_pos hlow, if_pos hlow']
    exact fit_unsigned16 (by omega) (by omega)
  · have hlow' : ¬ (shifted : Int) < 33 := by omega
    rw [if_neg hlow, if_neg hlow']
    rfl

/-- A value names an instruction if and only if it is the one that stands for it. -/
theorem decode_eq_some_iff {address value : Word} {instruction : Instruction} :
    decode false address value = some instruction ↔ value = encode address instruction := by
  constructor
  · exact encode_of_decode
  · rintro rfl
    exact decode_encode false address instruction

/-- Where nameless cells are no-ops, printable values name what they name anyway, or else
the no-op. -/
theorem decode_lenient_eq (address value : Word) :
    decode true address value =
      if isPrintable value then some ((decode false address value).getD .noOp) else none := by
  by_cases hp : isPrintable value = true
  · rw [if_pos hp]
    cases hd : decode false address value with
    | none => exact decode_nameless hp hd
    | some instruction => exact decode_lenient hd true
  · rw [if_neg hp]
    unfold decode
    rw [if_neg hp]

/-- Naming and reading are inverse to each other at every address. The value that stands for
an instruction is printable and found without an overflow, and with nameless cells as no-ops
exactly the printable values name something: what they name without, or else the no-op. -/
theorem naming_inverts_reading (address value : Word) (instruction : Instruction) :
    (decode false address value = some instruction ↔ value = encode address instruction) ∧
      isPrintable (encode address instruction) = true ∧
      checkedEncode address instruction = some ((encode address instruction : Nat) : Int) ∧
      ((decode true address value).isSome ↔ isPrintable value = true) ∧
      decode true address value =
        if isPrintable value then some ((decode false address value).getD .noOp) else none := by
  refine ⟨decode_eq_some_iff, encode_printable address instruction,
    checkedEncode_eq address instruction, ?_, decode_lenient_eq address value⟩
  rw [decode_lenient_eq]
  split
  next hp => exact iff_of_true rfl hp
  next hp => exact iff_of_false Bool.false_ne_true hp

end TernarySynth.Proofs.CodeInverse
