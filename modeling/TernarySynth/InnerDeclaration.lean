import TernarySynth.KeptPassage

/-!
# Inner declarations

The declarations among the statements of a block and in the braces of other
declarations. Those that are incomplete, or that say more than is usual where
they stand, are kept as they were read. From the head of all others, colons and
the word `where` are left out if nothing follows that they could introduce. The
printer does so wherever a type holds a block, which the length of an array may.
-/

namespace TernarySynth.InnerDeclaration

open ItemToken TokenContext KeptPassage

/-- What the declarations in some braces belong to. -/
inductive Owner where
  /-- A block, a module or an implementation. -/
  | block
  /-- A trait. -/
  | trait
  /-- The list of what is declared in another language. -/
  | foreign
  deriving DecidableEq

/-- The head of a declaration. -/
structure Head where
  /-- The words in front of the keyword. -/
  modifiers : List String
  /-- The keyword that says what is declared. -/
  keyword : String
  /-- What follows the keyword. -/
  rest : List Piece

/-- Words that may stand in front of the keyword of a declaration. -/
def modifierWords : List String :=
  ["async", "auto", "const", "default", "extern", "pub", "safe", "unsafe"]

/-- Words that always begin a declaration where a statement begins. -/
def keywords : List String :=
  ["enum", "fn", "impl", "macro", "mod", "struct", "trait", "type", "use"]

/-- Whether a word is the keyword of a declaration; `rest` follows it. -/
def isKeyword (word : String) (rest : List Piece) : Bool :=
  keywords.contains word ||
    match rest with
    | .token (.word next) :: _ =>
      word == "union" || (word == "static" && !(["async", "move"].contains next)) ||
        (word == "const" && !(["async", "extern", "fn", "move", "static", "unsafe"].contains next))
    | _ => false

/-- The head of a declaration behind modifiers, of which the last is first;
nothing if none is declared. Attributes, the range of `pub` and the name behind
`extern` are passed over. -/
def headBehind (modifiers : List String) : List Piece → Option Head
  | .token (.mark '#' _) :: .nested _ _ _ :: rest => headBehind modifiers rest
  | .token (.mark '#' _) :: .token (.mark '!' _) :: .nested _ _ _ :: rest =>
    headBehind modifiers rest
  | .token (.word text) :: rest =>
    if isKeyword text rest then some ⟨modifiers, text, rest⟩
    else if modifierWords.contains text then headBehind (text :: modifiers) rest
    else none
  | .token (.literal _) :: rest =>
    if modifiers.head? == some "extern" then headBehind modifiers rest else none
  | .nested "(" _ _ :: rest =>
    if modifiers.head? == some "pub" then headBehind modifiers rest else none
  | pieces =>
    if modifiers.head? == some "extern" then some ⟨modifiers, "extern", pieces⟩ else none

/-- The head of the declaration that some pieces are; nothing if they are none. -/
def headOf (pieces : List Piece) : Option Head := headBehind [] pieces

/-! ### Declarations that are kept -/

/-- Whether a word is among the modifiers of a declaration. -/
def Head.has (head : Head) (modifier : String) : Bool := head.modifiers.contains modifier

/-- Whether a declaration ends without a body. -/
def Head.isBodiless (head : Head) : Bool := head.rest.getLast?.any fun piece => piece.isMark ';'

/-- Whether a declaration gives a value or a type. -/
def Head.gives (head : Head) : Bool := head.rest.any fun piece => piece.isMark '='

/-- Whether a declaration has a list of bounds. -/
def Head.hasWhere (head : Head) : Bool := head.rest.any fun piece => piece.isWord "where"

/-- What follows the name that is declared. -/
def Head.afterName (head : Head) : List Piece :=
  match head.rest with
  | .token (.word "mut") :: _ :: rest => rest
  | _ :: rest => rest
  | [] => []

/-- Whether a piece begins a list of parameters. -/
def opensParameters (piece : Piece) : Bool :=
  match piece with
  | .nested opening _ _ => opening == "<"
  | piece => piece.isMark '<'

/-- Whether the name that is declared has parameters. -/
def Head.isGeneric (head : Head) : Bool := head.afterName.head?.any opensParameters

/-- Whether a colon follows the name that is declared and its parameters. -/
def Head.hasColon (head : Head) : Bool :=
  (head.afterName.dropWhile opensParameters).head?.any fun piece => piece.isMark ':'

/-- Words with which a type that is no path may begin. -/
def typeWords : List String := ["_", "dyn", "extern", "fn", "for", "impl", "unsafe"]

/-- Whether pieces are the path of a trait. -/
def isPath (pieces : List Piece) : Bool :=
  (match pieces with
    | .token (.word text) :: _ => !typeWords.contains text
    | piece :: _ => piece.isMark ':'
    | [] => false) &&
  !pieces.any fun piece => piece.isMark '+' || piece.isMark '!'

/-- What stands in front of the word `for` in the head of an implementation;
nothing if it does not stand there. -/
def beforeFor : List Piece → Option (List Piece)
  | [] => none
  | .token (.word "for") :: piece :: rest =>
    if opensParameters piece then
      (beforeFor rest).map fun before => .token (.word "for") :: piece :: before
    else some []
  | piece :: rest => if piece.isWord "where" then none else (beforeFor rest).map (piece :: ·)

/-- Whether an implementation is of something that is no trait, or for constants
only. `pieces` follow its parameters. -/
def isOddImplementation (pieces : List Piece) : Bool :=
  match pieces with
  | .token (.word "const") :: _ => true
  | .token (.mark '?' _) :: .token (.word "const") :: _ => true
  | .token (.mark '!' _) :: rest => (beforeFor rest).any fun implemented => !isPath implemented
  | rest => (beforeFor rest).any fun implemented => !isPath implemented

/-- Whether a declaration in a block, a module or an implementation is kept. -/
def Head.isOddInBlock (head : Head) : Bool :=
  match head.keyword with
  | "fn" => head.isBodiless
  | "const" => head.isGeneric || head.hasWhere || !head.gives
  | "static" => !head.hasColon || !head.gives
  | "type" => head.hasColon || !head.gives
  | "impl" => head.has "pub" || isOddImplementation (head.rest.dropWhile opensParameters)
  | "macro" => true
  | _ => false

/-- Whether a declaration in a trait is kept. -/
def Head.isOddInTrait (head : Head) : Bool :=
  head.has "pub" || head.has "default" ||
    (head.keyword == "const" && (head.isGeneric || head.hasWhere))

/-- Whether a declaration of what is declared in another language is kept. -/
def Head.isOddAbroad (head : Head) : Bool :=
  match head.keyword with
  | "fn" => head.has "safe" || !head.isBodiless
  | "static" => head.has "safe" || head.has "unsafe" || head.gives
  | "type" => head.hasColon || head.gives
  | _ => false

/-- Whether a declaration is kept. -/
def Head.isKept (head : Head) : Owner → Bool
  | .block => head.isOddInBlock
  | .trait => head.isOddInTrait
  | .foreign => head.isOddAbroad

/-! ### Statements -/

/-- Whether the statement that begins with some pieces goes on behind braces. -/
def goesOnBehindBraces (pieces : List Piece) : Bool :=
  match headOf pieces with
  | some head => ["const", "static", "type", "use"].contains head.keyword
  | none => pieces.head?.any fun piece => piece.isWord "let" || piece.isWord "become"

/-- The statements that some pieces are; `begun` are those of the first one that
have been read, last first. -/
def statementsFrom (begun : List Piece) : List Piece → List (List Piece)
  | [] => if begun.isEmpty then [] else [begun.reverse]
  | piece :: rest =>
    if piece.isMark ';' || (piece.isBraces && !goesOnBehindBraces begun.reverse) then
      (piece :: begun).reverse :: statementsFrom [] rest
    else statementsFrom (piece :: begun) rest

/-- The statements that some pieces are, one after the other. -/
def statementsOf (pieces : List Piece) : List (List Piece) := statementsFrom [] pieces

/-- Whether nothing follows that a colon or `where` could introduce. -/
def introducesNothing : List Piece → Bool
  | [] => true
  | .token (.mark c _) :: _ => c == ';' || c == '='
  | piece :: _ => piece.isBraces || piece.isWord "where"

/-- Pieces without a `where` that introduces nothing. -/
def withoutEmptyWhere : List Piece → List Piece
  | [] => []
  | piece :: rest =>
    (if piece.isWord "where" && introducesNothing rest then piece.writtenAs "" else piece) ::
      withoutEmptyWhere rest

/-- Pieces without a colon that introduces nothing. The bounds behind `where`
keep theirs. -/
def withoutEmptyColon : List Piece → List Piece
  | [] => []
  | piece :: rest =>
    if piece.isWord "where" then piece :: rest
    else if piece.isMark ':' && introducesNothing rest then piece.writtenAs "" :: rest
    else piece :: withoutEmptyColon rest

/-- A statement as it is written; `owner` says where it stands. -/
def statement (owner : Owner) (pieces : List Piece) : List Piece :=
  match headOf pieces with
  | none => keepPassages false pieces
  | some head =>
    if head.isKept owner then pieces.map Piece.keep
    else
      let pieces := withoutEmptyWhere (keepPassages false pieces)
      if head.keyword == "trait" || head.keyword == "type" then withoutEmptyColon pieces
      else pieces

/-- Statements as they are written; `owner` says where they stand. -/
def statements (owner : Owner) (pieces : List Piece) : List Piece :=
  (statementsOf pieces).flatMap (statement owner)

/-- What the declarations in braces belong to, by the pieces before them, of
which the last is first. -/
def ownerBehind (before : List Piece) : Owner :=
  let begun := (before.takeWhile fun piece => !(piece.isMark ';' || piece.isBraces)).reverse
  match headOf begun with
  | some ⟨_, "trait", _⟩ => .trait
  | some ⟨_, "extern", _⟩ => .foreign
  | _ => .block

end TernarySynth.InnerDeclaration
