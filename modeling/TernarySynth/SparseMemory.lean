import TernarySynth.MemoryImage

/-!
# Partly decided memory

A memory given by the history of its writes, newest first. A cell that was
never written is undecided; every other cell holds what was written to it
last.
-/

namespace TernarySynth.SparseMemory

open TritWord MemoryImage

/-- A memory in which only the written cells are decided. -/
structure SparseMemory where
  /-- Addresses and values written, newest first. -/
  history : List (Word × Word)

namespace SparseMemory

/-- A memory without a decided cell. -/
def empty : SparseMemory := ⟨[]⟩

/-- The value written to a cell last, if there is one. -/
def read (memory : SparseMemory) (address : Word) : Option Word :=
  (memory.history.find? fun entry => entry.1 == address).map Prod.snd

/-- Write a cell, decided or not. -/
def write (memory : SparseMemory) (address value : Word) : SparseMemory :=
  ⟨(address, value) :: memory.history⟩

instance : Memory SparseMemory where
  read := read
  write := write

/-- What a write does to later reads, in one equation. -/
theorem read_write (memory : SparseMemory) (a b v : Word) :
    (memory.write a v).read b = if a = b then some v else memory.read b := by
  by_cases h : a = b <;> simp [read, write, h]

instance : LawfulMemory SparseMemory where
  read_write_same m a v _ := by simp [Memory.read, Memory.write, read_write]
  read_write_other m a b v h := by simp [Memory.read, Memory.write, read_write, h]

end SparseMemory

end TernarySynth.SparseMemory
