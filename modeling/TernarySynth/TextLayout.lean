/-!
# Fields of text

Text that is cut to a precision and filled up with spaces to a width, and
numbers that are filled up with zeros.
-/

namespace TernarySynth.TextLayout

/-- On which side of a field its text stands. -/
inductive Alignment where
  /-- Filled up on the right. -/
  | left
  /-- Filled up on the left. -/
  | right
  /-- Filled up on both sides, an odd space on the right. -/
  | center
  deriving DecidableEq

/-- How a text is put into a field. -/
structure Layout where
  /-- How many characters the field has at least. -/
  width : Nat
  /-- Where the text stands in it. -/
  alignment : Alignment
  /-- How many characters of the text are shown at most. -/
  precision : Option Nat

/-- A left-aligned field that shows all of its text. -/
def Layout.ofWidth (width : Nat) : Layout := ⟨width, .left, none⟩

/-- The part of a text that a field shows. -/
def Layout.shown (layout : Layout) (text : List Char) : List Char :=
  match layout.precision with
  | some precision => text.take precision
  | none => text

/-- How many of the spaces stand on the left. -/
def Layout.leading (layout : Layout) (spaces : Nat) : Nat :=
  match layout.alignment with
  | .left => 0
  | .right => spaces
  | .center => spaces / 2

/-- The field that holds a text. -/
def Layout.fill (layout : Layout) (text : String) : String :=
  let shown := layout.shown text.toList
  let spaces := layout.width - shown.length
  let leading := layout.leading spaces
  String.ofList
    (List.replicate leading ' ' ++ (shown ++ List.replicate (spaces - leading) ' '))

/-- The decimal form of a number, with zeros in front up to a width. -/
def padded (width n : Nat) : String :=
  let digits := toString n
  String.ofList (List.replicate (width - digits.length) '0') ++ digits

end TernarySynth.TextLayout
