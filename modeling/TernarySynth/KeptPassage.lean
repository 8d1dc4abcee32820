import TernarySynth.TokenContext

/-!
# Kept passages

Some types, expressions and patterns are not taken apart. They are written as
they were read, with the lists of arguments in them. Such a passage begins with
certain words and ends in front of what cannot belong to it, so that it can be
found in a list of pieces from left to right. These are the passages for which
the parser has no form of its own and that the printer gives back untouched.
-/

namespace TernarySynth.KeptPassage

open ItemToken TokenContext

/-- A construct that is written as it was read. -/
inductive Passage where
  /-- A bound that has to hold for constants. -/
  | bound
  /-- A type that begins with `dyn *`; `sum` if plus signs belong to it. -/
  | unsized (sum : Bool)
  /-- The value behind `become`. -/
  | call
  /-- The pattern behind `box`. -/
  | pattern
  deriving DecidableEq

/-! ### Where a passage begins -/

/-- Whether a path begins with a piece. -/
def beginsPath : Piece → Bool
  | .token (.word text) => !(["async", "move", "static"].contains text)
  | .token (.mark c _) => c == ':' || c == '?'
  | _ => false

/-- Whether pieces begin with what requires a bound to hold for constants. -/
def beginsConst : List Piece → Bool
  | .nested _ _ kept :: _ => kept == "[const]"
  | .token (.word text) :: next :: _ => text == "const" && beginsPath next
  | _ => false

/-- Whether pieces begin with a bound that has to hold for constants, behind the
lifetimes it may name. -/
def beginsConstBound : List Piece → Bool
  | .token (.word text) :: .nested opening written kept :: rest =>
    if text == "for" then beginsConst rest
    else beginsConst (.token (.word text) :: .nested opening written kept :: rest)
  | pieces => beginsConst pieces

/-- Whether a bound may stand behind some pieces, of which the last is first;
`round` if they stand in round brackets. -/
def expectsBound (round : Bool) : List Piece → Bool
  | [] => round
  | .token (.word text) :: _ => text == "impl"
  | .token (.mark c _) :: before => c == '+' || (c == ':' && !endsJoint ':' before)
  | _ => false

/-- Whether a type that begins behind some pieces, of which the last is first,
may be a sum of bounds. -/
def expectsSum : List Piece → Bool
  | .token (.word text) :: _ => !(["as", "const", "mut"].contains text)
  | .token (.mark c _) :: before => !(c == '&' || (c == '>' && endsJoint '-' before))
  | .token (.lifetime _) :: _ => false
  | _ => true

/-- The passage that begins with the first of some pieces; `before` are the
pieces before it, last first, and `round` says whether they stand in round
brackets. -/
def beginning (round : Bool) (before pieces : List Piece) : Option Passage :=
  match pieces with
  | .token (.word "become") :: _ => some .call
  | .token (.word "box") :: _ => some .pattern
  | .token (.word "dyn") :: .token (.mark '*' _) :: _ => some (.unsized (expectsSum before))
  | pieces => if expectsBound round before && beginsConstBound pieces then some .bound else none

/-! ### Where it ends -/

/-- Whether the first of some pieces is a colon that is no part of a path. -/
def beginsColon (before pieces : List Piece) : Bool :=
  match pieces with
  | .token (.mark c joint) :: rest =>
    MarkPlace.isColon ⟨c, joint, before, rest.head?.bind Piece.token?⟩
  | _ => false

/-- Whether a type or bound ends in front of a piece that is no plus sign. -/
def endsType : Piece → Bool
  | .token (.mark c _) => ";=|".toList.contains c
  | .token (.word text) => text == "as" || text == "where"
  | piece => piece.isBraces

/-- Whether a pattern ends in front of a piece. -/
def endsPattern (before : List Piece) : Piece → Bool
  | .token (.mark c _) => c == ';' || c == '|' || (c == '=' && !endsJoint '.' before)
  | .token (.word text) => text == "if" || text == "in"
  | _ => false

/-- Whether a passage ends in front of the first of some pieces. -/
def Passage.endsBefore (passage : Passage) (before pieces : List Piece) : Bool :=
  match pieces with
  | [] => true
  | piece :: _ =>
    piece.isMark ',' ||
      match passage with
      | .bound => piece.isMark '+' || endsType piece || beginsColon before pieces
      | .unsized sum => (piece.isMark '+' && !sum) || endsType piece || beginsColon before pieces
      | .call => piece.isMark ';'
      | .pattern => endsPattern before piece || beginsColon before pieces

/-- The passage that the first of some pieces belongs to, where the piece before
it belongs to `passage`. -/
def passageAt (round : Bool) (passage : Option Passage) (before pieces : List Piece) :
    Option Passage :=
  match passage with
  | some passage =>
    if passage.endsBefore before pieces then beginning round before pieces else some passage
  | none => beginning round before pieces

/-- Pieces that follow others, of which the last is first, as they are written. -/
def keptBehind (round : Bool) (passage : Option Passage) (before : List Piece) :
    List Piece → List Piece
  | [] => []
  | piece :: rest =>
    let passage := passageAt round passage before (piece :: rest)
    (if passage.isSome then piece.keep else piece) ::
      keptBehind round passage (piece :: before) rest

/-- Pieces with the passages in them that are kept; `round` if they stand in
round brackets. -/
def keepPassages (round : Bool) (pieces : List Piece) : List Piece :=
  keptBehind round none [] pieces

/-! ### Parameters of function types -/

/-- The first parameter of the type of a function, which is kept if it is a
changeable `self`. -/
def keepReceiver : List Piece → List Piece
  | .token (.mark '#' joint) :: list :: rest =>
    .token (.mark '#' joint) :: list :: keepReceiver rest
  | .token (.word "mut") :: .token (.word "self") :: rest =>
    .token (.word "mut") :: .token (.word "self") :: rest.map Piece.keep
  | pieces => pieces

end TernarySynth.KeptPassage
