import TernarySynth.Proofs.DecidedText

/-!
# What a loaded text holds

A text that loads is short enough for memory, and each of its bytes may stand in its
cell. So where all of them are printable, every cell of the text holds the value of
an instruction, the one that a search would decide there.
-/

namespace TernarySynth.Proofs.LoadedText

open TritWord CellCode MemoryImage SourceText
open CodeValues DecidedText

/-- The place of the name table that stands for an instruction is the one that its
value selects. -/
theorem index_of_codepoint : ∀ index < 94, ∀ instruction ∈ Instruction.all,
    Instruction.ofCodepoint? (nameTable.getD index 0) = some instruction →
      index + printableMin = instruction.base := by
  decide +kernel

/-- A value that names an instruction is the value of the instruction. -/
theorem encode_of_decode {address value : Word} {instruction : Instruction}
    (h : decode false address value = some instruction) : value = encode address instruction := by
  have hv := isPrintable_iff.mp (printable_of_decode h)
  unfold decode at h
  rw [if_pos (printable_of_decode h)] at h
  split at h
  next found hfound =>
    cases h
    have hlt : nameIndex address value < 94 := Nat.mod_lt _ (by decide)
    have hindex := index_of_codepoint _ hlt instruction (mem_all instruction) hfound
    unfold nameIndex encode printableMin printableCount Word at *
    dsimp only
    split <;> omega
  next => cases h

variable {source : SourceText.SourceText} {image : Image}

/-- Where there is no offence every byte may stand in its cell. -/
theorem admissible_of_firstOffence {position : Nat} {bytes : List UInt8}
    (h : firstOffence position bytes = none) {i : Nat} {byte : UInt8} (hb : bytes[i]? = some byte) :
    isAdmissible (position + i) byte = true := by
  induction bytes generalizing position i with
  | nil => cases hb
  | cons first bytes ih =>
    rw [firstOffence] at h
    by_cases hfirst : isAdmissible position first = true
    · rw [if_pos hfirst] at h
      cases i with
      | zero =>
        cases hb
        exact hfirst
      | succ i =>
        rw [← Nat.succ_add_eq_add_succ]
        exact ih h hb
    · rw [if_neg hfirst] at h
      cases h

/-- A text that loads has its bytes in the cells, and each may stand there. -/
theorem read_of_load (loads : source.load = .ok image) {a : Word} {byte : UInt8}
    (hb : source.cells[a]? = some byte) :
    image.read a = some byte.toNat ∧ isAdmissible a byte = true := by
  unfold SourceText.load at loads
  dsimp only at loads
  split at loads
  next => cases loads
  next hoffence =>
    split at loads
    next => cases loads
    next hfits =>
      split at loads
      next => cases loads
      next =>
        rw [← Except.ok.inj loads]
        have hle := Nat.le_of_not_lt hfits
        rw [List.take_of_length_le hle] at hoffence
        have hadmissible := admissible_of_firstOffence hoffence hb
        rw [Nat.zero_add] at hadmissible
        have hcells : (source.cells.map UInt8.toNat).toArray.size = source.cells.length := by
          rw [List.size_toArray, List.length_map]
        obtain ⟨hsize, hget⟩ :=
          fill_getElem? (wordSize - source.cells.length) (source.cells.map UInt8.toNat).toArray
        rw [hcells] at hsize hget
        refine ⟨?_, hadmissible⟩
        rw [read_ofCells (by rw [hsize]; exact Nat.add_sub_of_le hle),
          hget a (List.getElem?_eq_some_iff.mp hb).1, List.getElem?_toArray, List.getElem?_map, hb,
          Option.map_some]

/-- Where the bytes of a text that loads are printable, each of its cells holds the
value of an instruction. -/
theorem encoded_of_load (loads : source.load = .ok image)
    (printable : ∀ byte ∈ source.cells, isPrintable byte.toNat = true) {a : Word}
    (inside : a < source.cells.length) :
    ∃ instruction, image.read a = some (encode a instruction) := by
  have hb := List.getElem?_eq_getElem inside
  obtain ⟨hread, hadmissible⟩ := read_of_load loads hb
  rw [isAdmissible, printable _ (List.getElem_mem inside), Bool.not_true, Bool.false_or,
    Option.isSome_iff_exists] at hadmissible
  obtain ⟨instruction, hd⟩ := hadmissible
  refine ⟨instruction, ?_⟩
  rw [hread, encode_of_decode hd]

end TernarySynth.Proofs.LoadedText
