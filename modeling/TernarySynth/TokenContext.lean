import TernarySynth.ItemToken

/-!
# Contexts of tokens

What an angle bracket means depends on where it stands. In a type it opens a
list of arguments; in an expression it does so only where a value cannot have
ended, and is a comparison elsewhere. A context says what is being read, and is
followed from token to token: the keywords and signs behind which a type is
written begin a stretch of types in an expression, and some brackets begin an
expression in a type. This is the part of the parser that tells types from
expressions, as far as the printed order of arguments depends on it.
-/

namespace TernarySynth.TokenContext

open ItemToken

/-- A token, or brackets with what stands between them. -/
inductive Piece where
  /-- A token that is no bracket. -/
  | token (token : Token)
  /-- A passage that begins with an opening bracket: how it is written, and its
  text as it was read. -/
  | nested (opening written kept : String)
  deriving DecidableEq

/-- The text of a piece as it is written. -/
def Piece.text : Piece → String
  | .token t => t.text
  | .nested _ written _ => written

/-- The text of a piece as it was read. -/
def Piece.keptText : Piece → String
  | .token t => t.text
  | .nested _ _ kept => kept

/-- A piece that is written as it was read. -/
def Piece.keep : Piece → Piece
  | .token t => .token t
  | .nested opening _ kept => .nested opening kept kept

/-- A piece that is written in another way, unless it is kept. -/
def Piece.writtenAs (piece : Piece) (written : String) : Piece :=
  .nested "" written piece.keptText

/-- The token that a piece is. -/
def Piece.token? : Piece → Option Token
  | .token t => some t
  | .nested _ _ _ => none

/-- Whether a piece is a certain mark. -/
def Piece.isMark (piece : Piece) (mark : Char) : Bool :=
  match piece with
  | .token (.mark c _) => c == mark
  | _ => false

/-- Whether a piece is a certain word. -/
def Piece.isWord (piece : Piece) (word : String) : Bool :=
  match piece with
  | .token (.word text) => text == word
  | _ => false

/-- Whether a piece is braces with what stands between them. -/
def Piece.isBraces : Piece → Bool
  | .nested opening _ _ => opening == "\x7b"
  | .token _ => false

/-- What is being read. -/
inductive Context where
  /-- Types, bounds and parameters. -/
  | types
  /-- An expression or statements. -/
  | value
  /-- The type that a value is turned into by `as`. -/
  | cast
  /-- A pattern or a name that may get a type behind a colon. -/
  | binding
  /-- The parameters of a function without a name, between bars. -/
  | parameters
  /-- A type behind a colon or an arrow among statements. -/
  | declared
  /-- The head of a declaration; `inFields` if fields stand in its braces. -/
  | heading (inFields : Bool)
  /-- Fields or variants, which commas divide. -/
  | fields
  /-- The name in an attribute, or what is given to it in brackets. -/
  | attribute
  /-- What no rule is known for. -/
  | verbatim
  deriving DecidableEq

/-- The words after which a value begins. -/
def openingWords : List String :=
  ["as", "break", "const", "dyn", "else", "fn", "for", "if", "impl", "in", "let", "loop", "match",
    "move", "mut", "ref", "return", "static", "unsafe", "where", "while", "yield"]

/-- Whether a value or the name of a type has ended behind some pieces, of which
the last is first. -/
def endsOperand : List Piece → Bool
  | [] => false
  | .nested _ _ _ :: _ => true
  | .token (.mark c _) :: _ => c == '?'
  | .token (.word text) :: _ => !openingWords.contains text
  | .token _ :: _ => true

/-- Whether the last piece is a mark that may form a sign with the next one. -/
def endsJoint (mark : Char) : List Piece → Bool
  | .token (.mark c joint) :: _ => c == mark && joint
  | _ => false

/-- Whether a mark and the token behind it form a sign of two marks. -/
def formsSign (joint : Bool) (next : Option Token) (second : Char) : Bool :=
  match next with
  | some (.mark c _) => joint && c == second
  | _ => false

/-- A mark where it stands. -/
structure MarkPlace where
  /-- The mark. -/
  mark : Char
  /-- Whether it and the next mark may form a sign. -/
  joint : Bool
  /-- The pieces before it, last first. -/
  before : List Piece
  /-- The token behind it. -/
  next : Option Token

/-- Whether a mark is a colon that is no part of a path. -/
def MarkPlace.isColon (place : MarkPlace) : Bool :=
  place.mark == ':' && !formsSign place.joint place.next ':' && !endsJoint ':' place.before

/-- Whether a mark is the end of an arrow. -/
def MarkPlace.endsArrow (place : MarkPlace) : Bool :=
  place.mark == '>' && endsJoint '-' place.before

/-- Whether a bar opens the parameters of a function without a name. -/
def MarkPlace.opensParameters (place : MarkPlace) : Bool :=
  place.mark == '|' && !endsOperand place.before && !endsJoint '|' place.before

/-- Whether a type that a value is turned into goes on with a mark. -/
def MarkPlace.continuesCast (place : MarkPlace) : Bool :=
  match place.mark with
  | ':' => true
  | '-' => formsSign place.joint place.next '>'
  | '>' => place.endsArrow
  | '!' => !formsSign place.joint place.next '='
  | '&' | '*' | '?' => !endsOperand place.before
  | _ => false

/-- The context behind a mark. -/
def Context.afterMark (context : Context) (place : MarkPlace) : Context :=
  match context with
  | .types => if place.mark == ';' then .value else .types
  | .value =>
    if place.opensParameters then .parameters
    else if place.endsArrow then .declared else .value
  | .cast => if place.continuesCast then .cast else .value
  | .binding =>
    if place.mark == '=' || place.mark == ';' then .value
    else if place.isColon then .declared else .binding
  | .parameters =>
    if place.mark == '|' then .value
    else if place.isColon then .declared else .parameters
  | .declared =>
    if place.mark == ',' then .parameters
    else if place.mark == '=' || place.mark == ';' || place.mark == '|' then .value else .declared
  | .heading inFields => if place.mark == ';' then .value else .heading inFields
  | .fields => if place.mark == '=' then .value else .fields
  | .attribute => if place.mark == '=' then .value else .attribute
  | .verbatim => .verbatim

/-- Whether a word begins a declaration in whose braces fields stand; `next` is
the token behind it. -/
def declaresFields (word : String) (next : Option Token) : Bool :=
  match next with
  | some (.word _) => word == "struct" || word == "enum" || word == "union"
  | _ => false

/-- The context behind a word among statements; `next` is the token behind it. -/
def statementWord (context : Context) (word : String) (next : Option Token) : Context :=
  if word == "as" then .cast
  else if word == "let" || word == "const" || word == "static" then .binding
  else if word == "fn" || word == "impl" || word == "trait" || word == "type" then .heading false
  else if declaresFields word next then .heading true
  else context

/-- The context behind a word; `before` are the pieces before it, last first, and
`next` is the token behind it. -/
def Context.afterWord (context : Context) (before : List Piece) (word : String)
    (next : Option Token) : Context :=
  match context with
  | .value | .binding | .parameters => statementWord context word next
  | .cast =>
    if word == "as" || !endsOperand before then .cast else statementWord .value word next
  | context => context

/-- Whether an angle bracket opens a list of arguments. A sign of two marks is
none, nor is a bracket behind a value in an expression. -/
def Context.opensAngle (context : Context) (place : MarkPlace) : Bool :=
  match context with
  | .types | .declared | .heading _ | .fields => true
  | .value | .binding | .parameters =>
    !endsOperand place.before && !endsJoint '<' place.before
  | .cast =>
    !formsSign place.joint place.next '=' &&
      match place.before with
      | .nested _ _ _ :: _ | .token (.literal _) :: _ => false
      | _ => true
  | .attribute | .verbatim => false

/-- Whether brackets belong to an attribute, by the pieces before them. -/
def opensAttribute : List Piece → Bool
  | .token (.mark '#' _) :: _ => true
  | .token (.mark '!' _) :: .token (.mark '#' _) :: _ => true
  | _ => false

/-- Whether brackets hold tokens that no rule is known for, by the pieces before
them: what is given to a name that ends in an exclamation mark, or what such a
name is declared to stand for. -/
def opensCall : List Piece → Bool
  | .token (.mark '!' _) :: .token (.word text) :: _ => !openingWords.contains text
  | .token (.word _) :: .token (.mark '!' _) :: .token (.word text) :: _ =>
    !openingWords.contains text
  | .token (.word _) :: .token (.mark '#' _) :: .token (.word text) :: _ => text == "builtin"
  | .token (.word _) :: .token (.word text) :: _ => text == "macro"
  | .nested _ _ _ :: .token (.word _) :: .token (.word text) :: _ => text == "macro"
  | _ => false

/-- The context inside brackets. -/
def Context.inside (context : Context) (before : List Piece) (bracket : Char) : Context :=
  if context == .attribute || context == .verbatim || opensCall before then .verbatim
  else if opensAttribute before then .attribute
  else
    match context with
    | .types | .declared | .cast => if bracket == '{' then .value else .types
    | .heading inFields =>
      if bracket != '{' then .types else if inFields then .fields else .value
    | .fields => if bracket == '{' then .fields else .types
    | _ => .value

/-- Whether a context is the head of a declaration. -/
def Context.isHeading : Context → Bool
  | .heading _ => true
  | _ => false

/-- Whether types stand directly in a context. -/
def Context.holdsTypes : Context → Bool
  | .types | .declared | .cast | .heading _ | .fields => true
  | _ => false

/-- The pieces before brackets, last first, as they are written. In front of the
parameters of a function type the sign of a path is left out. -/
def Context.writtenBefore (context : Context) (before : List Piece) (bracket : Char) :
    List Piece :=
  match before with
  | .token (.mark ':' _) :: .token (.mark ':' true) :: rest =>
    if bracket == '(' && context.holdsTypes then
      .nested "" "" "::" :: rest
    else before
  | before => before

/-- The context behind brackets. Braces end a type among statements. -/
def Context.afterBrackets (context : Context) (bracket : Char) : Context :=
  match context with
  | .declared | .cast | .heading _ => if bracket == '{' then .value else context
  | context => context

end TernarySynth.TokenContext
