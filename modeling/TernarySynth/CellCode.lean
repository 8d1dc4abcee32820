import TernarySynth.TritWord

/-!
# What a cell means at its address

The machine has no fixed opcodes. A cell is executable only when its value is
a printable, non-space ASCII code, and the instruction it names depends on
value and address together: both are added up into a table of 94 names, of
which only eight belong to instructions. `encode` chooses the one value that
names a given instruction at an address, `decode` reads it back, and `encrypt`
is the substitution that every executed cell undergoes.
-/

namespace TernarySynth.CellCode

open TritWord

/-- Lowest printable value. -/
def printableMin : Word := 33

/-- Highest printable value. -/
def printableMax : Word := 126

/-- Number of printable values, and period of the table of names. -/
def printableCount : Nat := 94

/-- The instructions of the machine. -/
inductive Instruction where
  /-- Load the data pointer from the cell it points to. -/
  | moveD
  /-- Load the code pointer from the cell under the data pointer. -/
  | jump
  /-- Rotate the data cell and load the accumulator with the result. -/
  | rotateRight
  /-- Combine accumulator and data cell and store the result in both. -/
  | combine
  /-- Write the accumulator as one byte. -/
  | output
  /-- Load the accumulator with the next input byte. -/
  | input
  /-- Stop the machine. -/
  | exit
  /-- Do nothing. -/
  | noOp
  deriving DecidableEq, Inhabited

/-- Every instruction, in the order in which a search tries them. -/
def Instruction.all : List Instruction :=
  [.moveD, .jump, .rotateRight, .combine, .output, .input, .exit, .noOp]

/-- The entry of the name table that stands for an instruction. -/
def Instruction.codepoint : Instruction → Nat
  | .moveD => 'j'.toNat
  | .jump => 'i'.toNat
  | .rotateRight => '*'.toNat
  | .combine => 'p'.toNat
  | .output => '<'.toNat
  | .input => '/'.toNat
  | .exit => 'v'.toNat
  | .noOp => 'o'.toNat

/-- The instruction that an entry of the name table stands for, if any. -/
def Instruction.ofCodepoint? : Nat → Option Instruction
  | 106 => some .moveD
  | 105 => some .jump
  | 42 => some .rotateRight
  | 112 => some .combine
  | 60 => some .output
  | 47 => some .input
  | 118 => some .exit
  | 111 => some .noOp
  | _ => none

/-- The value that names an instruction at address 0. -/
def Instruction.base : Instruction → Word
  | .moveD => '('.toNat
  | .jump => 'b'.toNat
  | .rotateRight => '\''.toNat
  | .combine => '>'.toNat
  | .output => 'c'.toNat
  | .input => 'u'.toNat
  | .exit => 'Q'.toNat
  | .noOp => 'D'.toNat

/-- The printed symbol of an instruction. -/
def Instruction.symbol (instruction : Instruction) : String :=
  String.singleton (Char.ofNat instruction.codepoint)

/-- The spelled-out name of an instruction. -/
def Instruction.name : Instruction → String
  | .moveD => "MoveD"
  | .jump => "Jump"
  | .rotateRight => "RotateRight"
  | .combine => "Combine"
  | .output => "Output"
  | .input => "Input"
  | .exit => "Exit"
  | .noOp => "NoOp"

/-- The name table, indexed by value less 33 plus address, modulo 94. -/
def nameTable : Array Nat := #[
    43, 98, 40, 50, 57, 101, 42, 106, 49, 86, 77, 69, 75, 76, 121, 67,
    125, 41, 56, 38, 109, 35, 126, 87, 62, 113, 120, 100, 82, 112, 48, 119,
    107, 114, 85, 111, 91, 68, 55, 44, 88, 84, 99, 65, 34, 108, 73, 46,
    118, 37, 123, 103, 74, 104, 52, 71, 92, 45, 61, 79, 64, 53, 96, 95,
    51, 105, 60, 63, 90, 39, 59, 70, 78, 81, 117, 89, 93, 115, 122, 102,
    36, 33, 66, 83, 47, 124, 116, 58, 80, 110, 54, 94, 72, 97]

/-- The substitution of executed cells, indexed by value less 33. -/
def cipherTable : Array Nat := #[
    53, 122, 93, 38, 103, 113, 116, 121, 102, 114, 36, 40, 119, 101, 52, 123,
    87, 80, 41, 72, 45, 90, 110, 44, 91, 37, 92, 51, 100, 76, 43, 81,
    59, 62, 85, 33, 112, 74, 83, 55, 50, 70, 104, 79, 65, 49, 67, 66,
    54, 118, 94, 61, 73, 95, 48, 47, 56, 124, 106, 115, 98, 57, 109, 60,
    46, 84, 86, 97, 99, 96, 117, 89, 42, 77, 75, 39, 88, 126, 120, 68,
    108, 125, 82, 69, 111, 107, 78, 58, 35, 63, 71, 34, 105, 64]

/-- Whether a value is a printable, non-space ASCII code. -/
def isPrintable (value : Word) : Bool :=
  decide (printableMin ≤ value) && decide (value ≤ printableMax)

/-- The position in the name table that a printable value selects at an address. -/
def nameIndex (address value : Word) : Nat :=
  (value - printableMin + address) % printableCount

/-- The instruction stored at an address. A value that is not printable is
none; a printable one that names no instruction is `noOp` when `lenient`. -/
def decode (lenient : Bool) (address value : Word) : Option Instruction :=
  if isPrintable value then
    match Instruction.ofCodepoint? (nameTable.getD (nameIndex address value) 0) with
    | some instruction => some instruction
    | none => if lenient then some .noOp else none
  else none

/-- The printable value that names an instruction at an address. -/
def encode (address : Word) (instruction : Instruction) : Word :=
  let shifted := (instruction.base + printableCount - address % printableCount) % printableCount
  if shifted < printableMin then shifted + printableCount else shifted

/-- The value of a cell after it has been executed; none if not printable. -/
def encrypt (value : Word) : Option Word :=
  if isPrintable value then some (cipherTable.getD (value - printableMin) 0) else none

end TernarySynth.CellCode
