import TernarySynth.InnerDeclaration
import TernarySynth.ValueSpelling

/-!
# Nested tokens

The tokens of a type or of a list of parameters, with what stands in brackets
taken as one piece, and divided where a comma stands outside all brackets.
Angle brackets nest as well where they hold arguments, and the lifetimes among
the arguments are moved to the front. Every piece carries its text as it was
read, so that a passage around it can still be kept. `ErrorImpl` takes from here
how the types, parameters and bounds of an item are printed.
-/

namespace TernarySynth.TokenNest

open ItemToken TokenContext KeptPassage InnerDeclaration ValueSpelling

/-- The text of pieces, one after the other. -/
def textOf (pieces : List Piece) : String := String.join (pieces.map Piece.text)

/-! ### Parts -/

/-- What stands between two commas. -/
structure Part where
  /-- The pieces. -/
  pieces : List Piece
  /-- Whether a comma follows. -/
  comma : Bool
  deriving DecidableEq

/-- The parts that commas make of some pieces. Nothing behind the last comma is
no part. -/
def divided : List Piece → List Part
  | [] => []
  | piece :: rest =>
    if piece.isMark ',' then ⟨[], true⟩ :: divided rest
    else
      match divided rest with
      | [] => [⟨[piece], false⟩]
      | part :: parts => { part with pieces := piece :: part.pieces } :: parts

/-- Pieces after the attributes in front of them. -/
def afterAttributes : List Piece → List Piece
  | .token (.mark '#' _) :: .nested _ _ _ :: rest => afterAttributes rest
  | pieces => pieces

/-- Whether a part is a lifetime, with bounds perhaps. A lifetime and a plus
sign begin a type. -/
def Part.isLifetime (part : Part) : Bool :=
  match afterAttributes part.pieces with
  | .token (.lifetime _) :: .token (.mark '+' _) :: _ => false
  | .token (.lifetime _) :: _ => true
  | _ => false

/-- Parts in the order in which they are written: lifetimes first, each with a
comma if anything else follows them. -/
def lifetimesFirst (parts : List Part) : List Part :=
  let lifetimes := parts.filter Part.isLifetime
  let others := parts.filter fun part => !part.isLifetime
  if others.isEmpty then lifetimes
  else lifetimes.map (fun part => { part with comma := true }) ++ others

/-- The texts of parts, each with its comma. `write` gives the text of a part. -/
def listed (write : Part → String) (parts : List Part) : String :=
  String.join (parts.map fun part => write part ++ if part.comma then "," else "")

/-- The text of a part without its comma. -/
def Part.text (part : Part) : String := textOf part.pieces

/-- The text of a part that declares a parameter: without a colon if no bound
follows. -/
def Part.boundText (part : Part) : String := textOf (withoutEmptyColon part.pieces)

/-- The text of a parameter of a type of functions. -/
def Part.receiverText (part : Part) : String := textOf (keepReceiver part.pieces)

/-- Whether pieces are a type with arguments where a pattern is expected. -/
def lacksPattern : List Piece → Bool
  | .token (.word _) :: .nested opening _ _ :: _ => opening == "<"
  | _ => false

/-- The text of a parameter of a function: one without a pattern gets the one
that fits everything. -/
def Part.patternText (part : Part) : String :=
  let pieces := afterAttributes part.pieces
  if lacksPattern pieces then
    textOf (part.pieces.take (part.pieces.length - pieces.length)) ++ "_:" ++ textOf pieces
  else part.text

/-! ### Brackets -/

/-- What brackets hold. -/
inductive Role where
  /-- Types or values. -/
  | plain
  /-- Tokens that no rule is known for. -/
  | verbatim
  /-- The arguments of a type or of a function. -/
  | arguments
  /-- Lifetimes that are named behind `for`. -/
  | binders
  /-- The parameters of a declaration. -/
  | parameters
  /-- What a type of functions takes. -/
  | taken
  /-- What a function that is declared takes. -/
  | patterns
  /-- Fields or variants. -/
  | fields
  /-- Statements or declarations. -/
  | statements (owner : Owner)
  deriving DecidableEq

/-- Brackets that are still open, or the text around them all. -/
structure Level where
  /-- The opening bracket; nothing around them all. -/
  opening : String
  /-- What they hold. -/
  role : Role
  /-- What is being read. -/
  context : Context
  /-- The pieces in them, last first. -/
  pieces : List Piece

/-- A level in which nothing has been read. -/
def Level.start (opening : String) (role : Role) (context : Context) : Level :=
  ⟨opening, role, context, []⟩

/-- A level with one more piece. -/
def Level.add (level : Level) (piece : Piece) : Level :=
  { level with pieces := piece :: level.pieces }

/-- The parts of a level as they are written, but for their order. -/
def Level.parts (level : Level) : List Part :=
  let pieces := level.pieces.reverse
  divided <|
    match level.role with
    | .verbatim => pieces
    | .taken | .patterns => keepPassages true pieces
    | .statements owner => spelling (statements owner pieces)
    | _ => spelling (keepPassages (level.opening == "(") pieces)

/-- What brackets with a certain role hold, as it is written. -/
def Role.listed (role : Role) (parts : List Part) : String :=
  match role with
  | .arguments => TokenNest.listed Part.text (lifetimesFirst parts)
  | .binders => TokenNest.listed Part.boundText parts
  | .parameters => TokenNest.listed Part.boundText (lifetimesFirst parts)
  | .taken => TokenNest.listed Part.receiverText parts
  | .patterns => TokenNest.listed Part.patternText parts
  | _ => TokenNest.listed Part.text parts

/-- The brackets of a level and what they hold. A declaration without parameters
has no brackets for them. -/
def Level.close (level : Level) (closing : String) : Piece :=
  let parts := level.parts
  let written := if level.role == .parameters && parts.isEmpty then ""
    else level.opening ++ level.role.listed parts ++ closing
  .nested level.opening written
    (level.opening ++ String.join (level.pieces.reverse.map Piece.keptText) ++ closing)

/-- The role of round, square or curly brackets; `inside` is the context in them
and `before` are the pieces before them, last first. -/
def roleOf (inside : Context) (before : List Piece) (bracket : Char) : Role :=
  if inside == .verbatim || inside == .attribute then .verbatim
  else if inside == .fields then .fields
  else if bracket == '{' && inside == .value then .statements (ownerBehind before)
  else if bracket == '(' && inside == .types then
    match before with
    | .token (.word "fn") :: _ => .taken
    | .nested "<" _ _ :: .token (.word _) :: .token (.word "fn") :: _ => .patterns
    | .token (.word _) :: .token (.word "fn") :: _ => .patterns
    | _ => .plain
  else .plain

/-- Whether a list of parameters follows some pieces, of which the last is first. -/
def declaresParameters : List Piece → Bool
  | .token (.word "impl") :: _ => true
  | .token (.word _) :: .token (.word keyword) :: _ =>
    ["enum", "fn", "struct", "trait", "type", "union"].contains keyword
  | _ => false

/-- The role of angle brackets behind some pieces, of which the last is first. -/
def angleRole (context : Context) (before : List Piece) : Role :=
  if before.head? == some (.token (.word "for")) then .binders
  else if context.isHeading && declaresParameters before then .parameters
  else .arguments

/-- The open brackets at one place of a text. -/
structure Nest where
  /-- The innermost ones. -/
  inner : Level
  /-- Those around them, from the inside to the outside. -/
  outer : List Level

/-- A nest with one more piece in the innermost brackets. -/
def Nest.add (nest : Nest) (piece : Piece) : Nest := { nest with inner := nest.inner.add piece }

/-- A nest outside the innermost brackets. Where none are open the closing one
is a piece by itself. -/
def Nest.leave (nest : Nest) (closing : String) : Nest :=
  match nest.outer with
  | [] => nest.add (.nested "" closing closing)
  | level :: outer => ⟨level.add (nest.inner.close closing), outer⟩

/-- A nest inside one more pair of brackets. -/
def Nest.enter (nest : Nest) (bracket : Char) : Nest :=
  let level := nest.inner
  let inside := level.context.inside level.pieces bracket
  let around := { level with
    pieces := level.context.writtenBefore level.pieces bracket
    context := level.context.afterBrackets bracket }
  ⟨.start (String.singleton bracket) (roleOf inside level.pieces bracket) inside,
    around :: nest.outer⟩

/-- A nest inside a list of arguments or parameters. -/
def Nest.enterAngle (nest : Nest) : Nest :=
  ⟨.start "<" (angleRole nest.inner.context nest.inner.pieces) .types, nest.inner :: nest.outer⟩

/-- Whether a mark closes the innermost brackets. -/
def Nest.closesAngle (nest : Nest) (place : MarkPlace) : Bool :=
  place.mark == '>' && nest.inner.opening == "<" && !place.endsArrow

/-- The context of a level behind a mark. A comma ends what is given to a field or
a variant. -/
def Level.contextAfter (level : Level) (place : MarkPlace) : Context :=
  if place.mark == ',' && level.role == .fields then .fields else level.context.afterMark place

/-- A nest after a mark. -/
def Nest.readMark (nest : Nest) (place : MarkPlace) : Nest :=
  let level := nest.inner
  if place.mark == '<' && level.context.opensAngle place then nest.enterAngle
  else if nest.closesAngle place then nest.leave ">"
  else
    let context := level.contextAfter place
    let level := level.add (.token (.mark place.mark place.joint))
    { nest with inner := { level with context := context } }

/-- A nest after a token; `next` is the token behind it. -/
def Nest.read (nest : Nest) (token : Token) (next : Option Token) : Nest :=
  let level := nest.inner
  match token with
  | .opening c => nest.enter c
  | .closing c => nest.leave (String.singleton c)
  | .mark c joint => nest.readMark ⟨c, joint, level.pieces, next⟩
  | .word text =>
    let context := level.context.afterWord level.pieces text next
    { nest with inner := { level.add (.token token) with context := context } }
  | token => nest.add (.token token)

/-- A nest after some tokens. -/
def Nest.readAll (nest : Nest) : List Token → Nest
  | [] => nest
  | token :: rest => (nest.read token rest.head?).readAll rest

/-- The parts of a nest. Brackets that are open at the end close there. -/
def Nest.parts (nest : Nest) : List Part :=
  (nest.outer.foldl (fun inner level => level.add (inner.close "")) nest.inner).parts

/-- The parts that commas outside all brackets make of some tokens. -/
def partsOf (tokens : List Token) : List Part :=
  (Nest.readAll ⟨.start "" .plain .types, []⟩ tokens).parts

/-- The tokens of several texts with a comma between each two of them. -/
def tokensOfList : List String → List Token
  | [] => []
  | [text] => tokensOf text
  | text :: rest => tokensOf text ++ .mark ',' false :: tokensOfList rest

/-- The text of a type without blanks. -/
def typeText (type : String) : String := listed Part.text (partsOf (tokensOf type))

/-- The text of bounds without blanks. -/
def boundsText (bounds : List String) : String :=
  listed Part.text (partsOf (tokensOfList bounds))

/-! ### Parameters of a type -/

/-- A parameter as it is declared in front of an implementation: without the
default that its type may give it, and without a colon if no bound follows. -/
def Part.declared (part : Part) : String :=
  textOf (withoutEmptyColon (part.pieces.takeWhile fun piece => !piece.isMark '='))

/-- The name of a parameter. -/
def Part.name (part : Part) : String :=
  match afterAttributes part.pieces with
  | .token (.word "const") :: piece :: _ => piece.text
  | piece :: _ => piece.text
  | [] => ""

/-- The parameters that are declared by some texts, lifetimes first. -/
def parametersOf (generics : List String) : List Part :=
  lifetimesFirst (partsOf (tokensOfList generics))

end TernarySynth.TokenNest
