import TernarySynth.TritWord

/-!
# Memory and flat images

The machine reads and writes cells through `Memory`. A cell is decided (it
holds a value) or undecided, which a read reports as `none`. An `Image` is the
memory of a loaded program: exactly `wordSize` cells, all decided. Addresses
outside it read as undecided and ignore writes.
-/

namespace TernarySynth.MemoryImage

open TritWord

/-- Cell storage that a machine can run on. -/
class Memory (M : Type) where
  /-- The value of a cell, or none while it is undecided. -/
  read : M → Word → Option Word
  /-- Store a value over whatever the cell held. -/
  write : M → Word → Word → M

/-- The law of cell storage: a write is read back where the cell was decided
before, and no other cell notices it. -/
class LawfulMemory (M : Type) [Memory M] : Prop where
  /-- A decided cell holds what was written last. -/
  read_write_same (m : M) (a v : Word) :
    (Memory.read m a).isSome → Memory.read (Memory.write m a v) a = some v
  /-- Other cells are untouched. -/
  read_write_other (m : M) (a b v : Word) :
    a ≠ b → Memory.read (Memory.write m a v) b = Memory.read m b

/-- A full memory: one decided value for every address below `wordSize`. -/
structure Image where
  /-- The cells in address order. -/
  cells : Array Word
  /-- There are as many cells as words. -/
  size_eq : cells.size = wordSize

namespace Image

/-- Equality of images is equality of their cells. -/
instance : DecidableEq Image := fun x y =>
  if h : x.cells = y.cells then
    isTrue (by cases x; cases y; cases h; rfl)
  else isFalse fun e => h (e ▸ rfl)

/-- Fit any number of values into an image: missing cells hold zero, values
beyond the last address are dropped. -/
def ofCells (cells : Array Word) : Image where
  cells := (cells ++ Array.replicate (wordSize - cells.size) 0).take wordSize
  size_eq := by simp; omega

/-- The value of a cell, or none outside the image. -/
def read (image : Image) (address : Word) : Option Word := image.cells[address]?

/-- Store a value; outside the image nothing happens. -/
def write (image : Image) (address value : Word) : Image where
  cells := image.cells.setIfInBounds address value
  size_eq := by simp [image.size_eq]

instance : Memory Image where
  read := read
  write := write

/-- What a write does to later reads, in one equation. -/
theorem read_write (image : Image) (a b v : Word) :
    (image.write a v).read b =
      if a = b then (if a < wordSize then some v else none) else image.read b := by
  have hs := image.size_eq
  by_cases h : a = b
  · subst h
    by_cases ha : a < wordSize <;> simp [read, write, ha, hs]
  · simp [read, write, h]

/-- Inside the image every cell is decided. -/
theorem read_isSome_iff (image : Image) (a : Word) :
    (image.read a).isSome ↔ a < wordSize := by
  simp [read, image.size_eq]

instance : LawfulMemory Image where
  read_write_same m a v h := by
    have := (read_isSome_iff m a).1 h
    simp [Memory.read, Memory.write, read_write, this]
  read_write_other m a b v h := by
    simp [Memory.read, Memory.write, read_write, h]

end Image

end TernarySynth.MemoryImage
