import TernarySynth.CellCode
import TernarySynth.MemoryImage
import TernarySynth.StreamError
import TernarySynth.QuotedText
import TernarySynth.LossyText

/-!
# Source texts

A source text is a sequence of bytes. Loading it skips ASCII whitespace and
puts every other byte into a cell of its own; a printable byte has to name an
instruction at its cell, any other byte is stored as it is. Behind the text
every cell is the combine of the two before it. In the other direction, cells
that a search has decided are written out as a text, with no-ops in the gaps.
-/

namespace TernarySynth.SourceText

open TritWord CellCode MemoryImage StreamError

/-- The bytes of a program. -/
structure SourceText where
  /-- The bytes, whitespace included. -/
  bytes : List UInt8
  deriving DecidableEq

/-- Why a text cannot be loaded. -/
inductive LoadError where
  /-- A printable byte names no instruction at its cell. -/
  | invalidCharacter (position : Nat) (byte : UInt8)
  /-- There are more cells than memory has. -/
  | tooLong (length : Nat)
  /-- There are not the two cells that the filler starts from. -/
  | tooShort (length : Nat)
  /-- The text could not be read. -/
  | io (error : IoError)
  deriving DecidableEq

/-- The reported text of a load error. -/
def LoadError.message : LoadError → String
  | .invalidCharacter position byte =>
    "invalid character " ++ QuotedText.quoteChar (Char.ofNat byte.toNat) ++ " at cell " ++
      toString position
  | .tooLong length => "program of " ++ toString length ++ " cells does not fit into memory"
  | .tooShort length =>
    "program of " ++ toString length ++ " cells is too short, at least 2 are required"
  | .io error => "io error: " ++ error.message

/-- Whether a byte is ASCII whitespace: space, tab, line feed, form feed or
carriage return. -/
def isBlank (byte : UInt8) : Bool :=
  byte == 32 || byte == 9 || byte == 10 || byte == 12 || byte == 13

/-- Whether a byte may stand in a cell of a text. -/
def isAdmissible (position : Nat) (byte : UInt8) : Bool :=
  !isPrintable byte.toNat || (decode false position byte.toNat).isSome

/-- The first byte that may not stand in its cell; `position` is the cell of
the first byte of the list. -/
def firstOffence (position : Nat) : List UInt8 → Option (Nat × UInt8)
  | [] => none
  | byte :: rest =>
    if isAdmissible position byte then firstOffence (position + 1) rest
    else some (position, byte)

/-- The combine of the last two cells. -/
def nextFiller (cells : Array Word) : Word :=
  combine (cells.getD (cells.size - 1) 0) (cells.getD (cells.size - 2) 0)

/-- Append that many cells of filler. -/
def fill : Nat → Array Word → Array Word
  | 0, cells => cells
  | n + 1, cells => fill n (cells.push (nextFiller cells))

namespace SourceText

/-- The bytes that occupy cells. -/
def cells (source : SourceText) : List UInt8 := source.bytes.filter fun byte => !isBlank byte

/-- The initial memory image. An inadmissible byte is reported first if it
would lie inside memory, then a text that is too long or too short. -/
def load (source : SourceText) : Except LoadError Image :=
  let cells := source.cells
  match firstOffence 0 (cells.take wordSize) with
  | some (position, byte) => .error (.invalidCharacter position byte)
  | none =>
    let length := cells.length
    if wordSize < length then .error (.tooLong length)
    else if length < 2 then .error (.tooShort length)
    else .ok (.ofCells (fill (wordSize - length) (cells.map UInt8.toNat).toArray))

/-- The text as characters; ill-formed bytes are shown by a replacement. -/
def display (source : SourceText) : String := LossyText.ofBytes source.bytes

/-- The decided value of a cell: the first entry for it, if there is one. -/
def decided (decisions : List (Word × Word)) (address : Word) : Option Word :=
  (decisions.find? fun entry => entry.1 == address).map Prod.snd

/-- The number of cells up to the highest decided address. -/
def span (decisions : List (Word × Word)) : Nat :=
  decisions.foldl (fun bound entry => max bound (entry.1 + 1)) 0

/-- Decided cells, and the no-op of an address where nothing was decided. -/
def byteAt (decisions : List (Word × Word)) (address : Word) : UInt8 :=
  UInt8.ofNat ((decided decisions address).getD (encode address .noOp) % 256)

/-- Write decided cells out as a text that ends at the highest of them. With
several entries for an address the first one counts. -/
def ofDecisions (decisions : List (Word × Word)) : SourceText :=
  ⟨(List.range (span decisions)).map (byteAt decisions)⟩

end SourceText

end TernarySynth.SourceText
