import TernarySynth.ErrorItem
import TernarySynth.TokenNest
import TernarySynth.MessageTemplate

/-!
# Implementations for error types

The source text that makes an error type displayable: an implementation of
`Display` that writes the message with the fields it uses, one of `Error` that
leads to the field a variant was made from, and one of `From` for every such
variant. The text is a sequence of tokens without space between them.
-/

namespace TernarySynth.ErrorImpl

open ErrorItem TokenNest MessageTemplate QuotedText

/-- A body between braces. -/
def braced (body : String) : String := "\x7b" ++ body ++ "\x7d"

/-- Texts with a comma between them. -/
def commaList (texts : List String) : String := ",".intercalate texts

/-- Parameters between angle brackets; nothing if there are none. -/
def angled (write : Part → String) (parameters : List Part) : String :=
  if parameters.isEmpty then "" else "<" ++ listed write parameters ++ ">"

/-- The bounds on parameters; nothing if there are none. -/
def whereClause (bounds : List String) : String :=
  let text := boundsText bounds
  if text.isEmpty then "" else "where" ++ text

/-- The head of an implementation of something for an item. -/
def implHead (item : Item) (implemented : String) : String :=
  let parameters := parametersOf item.generics
  "impl" ++ angled Part.declared parameters ++ implemented ++ "for" ++ item.name ++
    angled Part.name parameters ++ whereClause item.bounds

/-- An implementation of something for an item. -/
def implBlock (item : Item) (implemented body : String) : String :=
  implHead item implemented ++ braced body

/-- The instruction to write a message; `arguments` are the names and values of
the fields it uses, and none where there are no fields at all. -/
def writeCall (message : String) (arguments : Option (List (String × String))) : String :=
  let passed := match arguments with
    | none => ""
    | some arguments => "," ++ commaList (arguments.map fun entry => entry.1 ++ "=" ++ entry.2)
  "write!(f," ++ literalText message ++ passed ++ ")"

/-- Whether a message uses a field by its name. -/
def usesField (message name : String) : Bool := references message.toList name.toList

/-- The instruction to write the message of a type or of a variant. `valueOf`
gives the value of a field by the name it has in the message and the name it
has in the item. -/
def writeMessage (message : String) (fields : Fields) (valueOf : String → String → String) :
    String :=
  match fields with
  | .unit => writeCall message none
  | .tuple fields =>
    let message := String.ofList (nameFields message.toList fields.length)
    let names := (List.range fields.length).map fun index =>
      (String.ofList (fieldName index), toString index)
    writeCall message (some (names.filterMap fun (name, index) =>
      if usesField message name then some (name, valueOf name index) else none))
  | .named fields =>
    writeCall message (some (fields.filterMap fun field =>
      if usesField message field.name then some (field.name, valueOf field.name field.name)
      else none))

/-- The pattern that a variant is matched by. -/
def variantPattern (variant : Variant) : String :=
  "Self::" ++ variant.name ++
    match variant.fields with
    | .unit => ""
    | .tuple fields =>
      "(" ++ commaList ((List.range fields.length).map fun index =>
        String.ofList (fieldName index)) ++ ")"
    | .named fields => braced (commaList (fields.map Field.name))

/-- The function that formats an item. -/
def formatFunction (body : String) : String :=
  "fnfmt(&self,f:&mut::std::fmt::Formatter<'_>)->::std::fmt::Result" ++ braced body

/-- What a single variant contributes. -/
structure VariantParts where
  /-- The case that writes its message. -/
  display : String
  /-- The case that leads to its source, and the conversion into it, if it is
  made from a field. -/
  source : Option (String × String)

/-- The result type of the function that leads to a source. -/
def sourceType : String := "&(dyn::std::error::Error+'static)"

/-- The parts of one variant of an item. -/
def variantParts (item : Item) (variant : Variant) : Except ItemError VariantParts := do
  let message ← messageOf (.variant variant.name) variant.attributes
  let display :=
    variantPattern variant ++ "=>" ++ writeMessage message variant.fields (fun name _ => name) ++
      ","
  match ← variant.fields.sourceType with
  | none => return ⟨display, none⟩
  | some type =>
    let type := typeText type
    let source := "Self::" ++ variant.name ++ "(inner)=>Some(inneras" ++ sourceType ++ "),"
    let conversion := "fnfrom(source:" ++ type ++ ")->Self" ++
      braced ("Self::" ++ variant.name ++ "(source)")
    return ⟨display,
      some (source, implBlock item ("::std::convert::From<" ++ type ++ ">") conversion)⟩

/-- The function that leads to a source; nothing if no variant has one. -/
def sourceFunction (cases : List String) : String :=
  if cases.isEmpty then ""
  else
    "fnsource(&self)->::std::option::Option<" ++ sourceType ++ ">" ++
      braced ("matchself" ++ braced (String.join cases ++ "_=>None,"))

/-- The implementations for an enumeration. -/
def implsForVariants (item : Item) (variants : List Variant) : Except ItemError String := do
  let parts ← variants.mapM (variantParts item)
  let sources := parts.filterMap VariantParts.source
  let cases := "matchself" ++ braced (String.join (parts.map VariantParts.display))
  return implBlock item "::std::fmt::Display"
      ("#[allow(unused_variables)]" ++ formatFunction cases) ++
    implBlock item "::std::error::Error" (sourceFunction (sources.map Prod.fst)) ++
    String.join (sources.map Prod.snd)

/-- The implementations for a type without variants. -/
def implsForRecord (item : Item) (fields : Fields) : Except ItemError String := do
  let message ← messageOf (.type item.name) item.attributes
  let body := writeMessage message fields fun _ field => "self." ++ field
  return implBlock item "::std::fmt::Display" (formatFunction body) ++
    implBlock item "::std::error::Error" ""

/-- The implementations for an error type. -/
def implsFor (item : Item) : Except ItemError String :=
  match item.shape with
  | .enumeration variants => implsForVariants item variants
  | .record fields => implsForRecord item fields
  | .union => .error .union

end TernarySynth.ErrorImpl
