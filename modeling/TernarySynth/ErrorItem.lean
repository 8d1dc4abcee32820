import TernarySynth.ItemToken

/-!
# Descriptions of error types

What an error type looks like: its name, its parameters and the attributes and
fields of each of its variants. The message of a variant, or of a type that has
no variants, is taken from its first `error` attribute.
-/

namespace TernarySynth.ErrorItem

open ItemToken

/-- What follows the path of an attribute. -/
inductive Argument where
  /-- Nothing. -/
  | none
  /-- An equals sign and a value. -/
  | assigned
  /-- One string literal in parentheses. -/
  | message (text : String)
  /-- Anything else in parentheses. -/
  | tokens (text : String)
  deriving DecidableEq

/-- An attribute of a type, a variant or a field. -/
structure Attribute where
  /-- The path. -/
  path : String
  /-- What follows it. -/
  argument : Argument
  deriving DecidableEq

/-- A field of a type or of a variant. -/
structure Field where
  /-- The name; empty where fields are numbered. -/
  name : String
  /-- The type, as it is written. -/
  type : String
  /-- The attributes. -/
  attributes : List Attribute
  deriving DecidableEq

/-- The fields of a type or of a variant. -/
inductive Fields where
  /-- None, not even parentheses. -/
  | unit
  /-- Numbered fields. -/
  | tuple (fields : List Field)
  /-- Named fields. -/
  | named (fields : List Field)
  deriving DecidableEq

/-- A variant of an enumeration. -/
structure Variant where
  /-- The name. -/
  name : String
  /-- The attributes. -/
  attributes : List Attribute
  /-- The fields. -/
  fields : Fields
  deriving DecidableEq

/-- The three kinds of types. -/
inductive Shape where
  /-- One of several variants. -/
  | enumeration (variants : List Variant)
  /-- One set of fields. -/
  | record (fields : Fields)
  /-- Overlapping fields. -/
  | union
  deriving DecidableEq

/-- An error type. -/
structure Item where
  /-- The name. -/
  name : String
  /-- Parameters of the type, as they are declared. -/
  generics : List String
  /-- Bounds on the parameters. -/
  bounds : List String
  /-- The attributes. -/
  attributes : List Attribute
  /-- What the type is made of. -/
  shape : Shape
  deriving DecidableEq

/-- What a message belongs to. -/
inductive Owner where
  /-- A variant. -/
  | variant (name : String)
  /-- A type without variants. -/
  | type (name : String)
  deriving DecidableEq

/-- Why no implementation can be generated. -/
inductive ItemError where
  /-- There is no `error` attribute. -/
  | missingMessage (owner : Owner)
  /-- The `error` attribute has no parentheses. -/
  | notDescribed
  /-- There is not exactly one literal in its parentheses. -/
  | notLiteral
  /-- The literal is no string. -/
  | notString
  /-- A `from` field is not the only field of its variant. -/
  | notSingle
  /-- A `from` field has a name. -/
  | notTuple
  /-- The type is a union. -/
  | union
  deriving DecidableEq

/-- How an owner is called in a report. -/
def Owner.description : Owner → String
  | .variant name => "variant \x60" ++ name ++ "\x60"
  | .type name => "type \x60" ++ name ++ "\x60"

/-- The reported text. -/
def ItemError.message : ItemError → String
  | .missingMessage owner =>
    "missing #[error(\"...\")] attribute on " ++ owner.description ++
      "; every error variant must declare a display message"
  | .notDescribed =>
    "invalid #[error] attribute; use #[error(\"message\")] to describe the error"
  | .notLiteral =>
    "failed to parse #[error] attribute; expected a string literal like " ++
      "#[error(\"cell \x7b0\x7d is not printable\")]"
  | .notString => "invalid #[error] attribute: message must be a string literal"
  | .notSingle => "#[from] requires a tuple variant with exactly one field"
  | .notTuple => "#[from] is only supported on tuple variants"
  | .union => "Error derive does not support unions"

/-- The message that tokens in parentheses give: one literal, which is a string.
A number may have a minus sign, and the two truth values are literals too. -/
def messageOfTokens : List Token → Except ItemError String
  | [.literal text] => match stringValue text with
    | some message => .ok message
    | none => .error .notString
  | [.mark '-' _, .literal text] => .error (if isNumber text then .notString else .notLiteral)
  | [.word text] =>
    .error (if text == "true" || text == "false" then .notString else .notLiteral)
  | _ => .error .notLiteral

/-- The message that an `error` attribute gives. -/
def Argument.read : Argument → Except ItemError String
  | .none => .error .notDescribed
  | .assigned => .error .notDescribed
  | .message text => .ok text
  | .tokens text => messageOfTokens (tokensOf text)

/-- Whether the path of an attribute is a single name. -/
def Attribute.isNamed (mark : Attribute) (name : String) : Bool :=
  tokensOf mark.path == [.word name]

/-- The message that the first `error` attribute of an owner gives. -/
def messageOf (owner : Owner) (attributes : List Attribute) : Except ItemError String :=
  match attributes.find? fun mark => mark.isNamed "error" with
  | some mark => mark.argument.read
  | none => .error (.missingMessage owner)

/-- Whether a field is marked as the one that its variant is made from. -/
def Field.isSource (field : Field) : Bool :=
  field.attributes.any fun mark => mark.isNamed "from"

/-- The type of the field that a variant is made from, if one is marked. It has
to be the only field, and without a name. -/
def Fields.sourceType : Fields → Except ItemError (Option String)
  | .unit => .ok none
  | .tuple fields =>
    match fields.find? Field.isSource with
    | none => .ok none
    | some field => if fields.length = 1 then .ok (some field.type) else .error .notSingle
  | .named fields => if fields.any Field.isSource then .error .notTuple else .ok none

end TernarySynth.ErrorItem
