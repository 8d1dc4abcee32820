import TernarySynth.TokenContext

/-!
# Spellings in values

Two things in a value can be read in several spellings and are written in one.
The number of a field stands behind a dot or in front of a colon and is written
in decimal digits. A range with its end has three dots or two and an equals
sign, and is written with the sign. Values come up in types as the lengths of
arrays and as arguments; these are the spellings that the printer unifies there.
-/

namespace TernarySynth.ValueSpelling

open ItemToken TokenContext

/-- The value of digits in some base. Lines between them do not count. -/
def digitsValue (base : Nat) (digits : List Char) : Nat :=
  (digits.filter (· != '_')).foldl (fun value c => base * value + hexValue c) 0

/-- The value of a whole number. -/
def numberValue (number : List Char) : Nat :=
  match number with
  | '0' :: 'x' :: digits => digitsValue 16 digits
  | '0' :: 'o' :: digits => digitsValue 8 digits
  | '0' :: 'b' :: digits => digitsValue 2 digits
  | digits => digitsValue 10 digits

/-- The numbers of fields that a literal gives, with a dot between each two. -/
def fieldText (literal : String) : String :=
  ".".intercalate ((literal.splitOn ".").map fun number =>
    if number.isEmpty then "" else toString (numberValue number.toList))

/-- Whether a literal between some pieces gives numbers of fields; the last of
those before it is first. -/
def givesField (literal : String) (before rest : List Piece) : Bool :=
  isNumber literal &&
    match before, rest with
    | .token (.mark '.' _) :: before, _ => !endsJoint '.' before
    | _, .token (.mark ':' _) :: _ => true
    | _, _ => false

/-- A piece as it is spelled between others, of which the last of those before
it is first. -/
def spelled (before : List Piece) (piece : Piece) (rest : List Piece) : Piece :=
  match piece with
  | .token (.literal text) =>
    if givesField text before rest then piece.writtenAs (fieldText text) else piece
  | .token (.mark '.' _) =>
    if endsJoint '.' before && endsJoint '.' (before.drop 1) then piece.writtenAs "=" else piece
  | piece => piece

/-- Pieces that follow others, of which the last is first, as they are spelled. -/
def spelledBehind (before : List Piece) : List Piece → List Piece
  | [] => []
  | piece :: rest => spelled before piece rest :: spelledBehind (piece :: before) rest

/-- Pieces as they are spelled. -/
def spelling (pieces : List Piece) : List Piece := spelledBehind [] pieces

end TernarySynth.ValueSpelling
