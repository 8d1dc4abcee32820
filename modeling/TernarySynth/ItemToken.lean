import TernarySynth.QuotedText

/-!
# Tokens of item descriptions

The words, lifetimes, literals, marks and brackets that the text of a type, of
a parameter or of an attribute is made of. White space and comments only
separate them; a comment that documents something stands for a `doc` attribute
with its text. A character that begins nothing else is a mark.

An implementation repeats the types and bounds of its item as the parser and the
printer of the item's language give them back. Both belong to that language and
are relied on. What shows of them in an implementation is written out here, in
`TokenContext`, `KeptPassage`, `InnerDeclaration`, `ValueSpelling` and `TokenNest`,
so that whole implementations can be written and compared. No result is about
them.
-/

namespace TernarySynth.ItemToken

open CharClass QuotedText

/-- The smallest parts of a description. -/
inductive Token where
  /-- A name or a keyword. -/
  | word (text : String)
  /-- A name after an apostrophe. -/
  | lifetime (text : String)
  /-- A number, a character or a text, as it is written. -/
  | literal (text : String)
  /-- A punctuation character, and whether it and the next one may form a sign. -/
  | mark (mark : Char) (joint : Bool)
  /-- An opening bracket. -/
  | opening (bracket : Char)
  /-- A closing bracket. -/
  | closing (bracket : Char)
  deriving DecidableEq

/-- The text of a token. -/
def Token.text : Token → String
  | .word text | .lifetime text | .literal text => text
  | .mark c _ | .opening c | .closing c => String.singleton c

/-- A beginning of a text and the rest of it. -/
abbrev Split := List Char × List Char

/-- Whether a character only separates tokens. The two marks of writing
direction count as white space. -/
def isGap (c : Char) : Bool := isWhiteSpace c || c == '\u200e' || c == '\u200f'

/-- Whether a word can begin with a character. -/
def startsWord (c : Char) : Bool :=
  c.isAlpha || c == '_' || (decide (128 ≤ c.toNat) && !isGap c)

/-- Whether a word can go on with a character. -/
def continuesWord (c : Char) : Bool := startsWord c || c.isDigit

/-- Whether a text begins with a word. -/
def beginsWord (text : List Char) : Bool :=
  match text with
  | [] => false
  | c :: _ => startsWord c

/-- The longest beginning with characters of one kind. -/
def splitWhile (kind : Char → Bool) (text : List Char) : Split :=
  (text.takeWhile kind, text.dropWhile kind)

/-! ### Comments -/

/-- The line at the front of a text; its end belongs to the rest. -/
def splitLine : List Char → Split
  | [] => ([], [])
  | '\r' :: '\n' :: rest => ([], '\n' :: rest)
  | c :: rest => if c == '\n' then ([], c :: rest) else ((splitLine rest).map (c :: ·) id)

/-- The inside of a block comment in which `depth` more are open, and what
follows the comment; nothing if it is not closed. -/
def splitBlock : Nat → List Char → Option Split
  | _, [] => none
  | depth, c :: d :: rest =>
    if c == '*' && d == '/' then
      match depth with
      | 0 => some ([], rest)
      | depth + 1 => (splitBlock depth rest).map (Prod.map ([c, d] ++ ·) id)
    else if c == '/' && d == '*' then
      (splitBlock (depth + 1) rest).map (Prod.map ([c, d] ++ ·) id)
    else (splitBlock depth (d :: rest)).map (Prod.map (c :: ·) id)
  | _, [_] => none

/-- The attribute that a documenting comment stands for; `inner` if it documents
what it stands in. -/
def documentation (inner : Bool) (text : List Char) : List Token :=
  [.mark '#' false] ++ (if inner then [.mark '!' false] else []) ++
    [.opening '[', .word "doc", .mark '=' false, .literal (literalText (String.ofList text)),
      .closing ']']

/-- What a comment stands for, by its text after the opening `//` or `/*`. One
more of the second character documents what follows, an exclamation mark what
the comment stands in. -/
def commentTokens (doubled : Char) (text : List Char) : List Token :=
  match text with
  | '!' :: inside => documentation true inside
  | c :: inside =>
    if c == doubled && inside.head? != some doubled then documentation false inside else []
  | [] => []

/-- The comment at the front of a text, and the rest. -/
def splitComment (text : List Char) : Option (List Token × List Char) :=
  match text with
  | '/' :: '/' :: rest =>
    let (line, rest) := splitLine rest
    some (commentTokens '/' line, rest)
  | '/' :: '*' :: rest =>
    (splitBlock 0 rest).map fun (inside, rest) =>
      (if inside == ['*'] then [] else commentTokens '*' inside, rest)
  | _ => none

/-! ### Literals -/

/-- A literal with the word that follows it at once. -/
def withSuffix (literal rest : List Char) : Split :=
  if beginsWord rest then (splitWhile continuesWord rest).map (literal ++ ·) id
  else (literal, rest)

/-- A quoted text after its opening quote, with the closing one. A character
after a backslash does not close it. -/
def splitQuoted (quote : Char) : List Char → Option Split
  | [] => none
  | '\\' :: c :: rest => (splitQuoted quote rest).map (Prod.map (['\\', c] ++ ·) id)
  | c :: rest =>
    if c == quote then some ([c], rest) else (splitQuoted quote rest).map (Prod.map (c :: ·) id)

/-- A single character after its opening quote, with the closing one. -/
def splitSingle (text : List Char) : Option Split :=
  match text with
  | '\\' :: c :: rest => (splitQuoted '\'' rest).map (Prod.map (['\\', c] ++ ·) id)
  | c :: '\'' :: rest => some ([c, '\''], rest)
  | _ => none

/-- A text without escapes after its opening quote: up to a quote with as many
hash signs after it as stood before the opening one. -/
def splitRaw (hashes : List Char) : List Char → Option Split
  | [] => none
  | c :: rest =>
    if c == '"' && hashes.isPrefixOf rest then some (c :: hashes, rest.drop hashes.length)
    else (splitRaw hashes rest).map (Prod.map (c :: ·) id)

/-- A text without escapes from its hash signs on. -/
def splitHashed (text : List Char) : Option Split :=
  let (hashes, rest) := splitWhile (· == '#') text
  match rest with
  | '"' :: rest => (splitRaw hashes rest).map (Prod.map (hashes ++ '"' :: ·) id)
  | _ => none

/-- Whether a character stands for a digit or only between digits. -/
def isNumeral (c : Char) : Bool := c.isDigit || c == '_'

/-- An exponent: a letter, a sign that may be missing, and at least one digit. -/
def splitExponent (text : List Char) : Option Split :=
  match text with
  | [] => none
  | letter :: rest =>
    let (lines, rest) := splitWhile (· == '_') rest
    let (sign, rest) := match rest with
      | '+' :: rest => (['+'], rest)
      | '-' :: rest => (['-'], rest)
      | rest => ([], rest)
    let (digits, rest) := splitWhile isNumeral rest
    if (letter == 'e' || letter == 'E') && digits.any Char.isDigit then
      some (letter :: lines ++ sign ++ digits, rest)
    else none

/-- A number with a fraction or an exponent. A dot makes a fraction unless
another dot or a word follows it. -/
def splitFraction (text : List Char) : Option Split :=
  let (digits, rest) := splitWhile isNumeral text
  match rest with
  | '.' :: rest =>
    if beginsWord rest || rest.head? == some '.' then none
    else
      let (fraction, rest) := splitWhile isNumeral rest
      let (exponent, rest) := (splitExponent rest).getD ([], rest)
      some (digits ++ '.' :: fraction ++ exponent, rest)
  | rest => (splitExponent rest).map (Prod.map (digits ++ ·) id)

/-- A number at the front of a text that begins with a digit. -/
def splitNumber (text : List Char) : Split :=
  match splitFraction text with
  | some (number, rest) => withSuffix number rest
  | none => splitWhile continuesWord text

/-- A literal whose opening has been read. -/
def closeLiteral (opening : List Char) (rest : Option Split) : Option Split :=
  rest.map fun (inside, rest) => withSuffix (opening ++ inside) rest

/-- The literal at the front of a text, and the rest. -/
def splitLiteral (text : List Char) : Option Split :=
  match text with
  | [] => none
  | c :: rest =>
    if c == '"' then closeLiteral [c] (splitQuoted '"' rest)
    else if c == '\'' then closeLiteral [c] (splitSingle rest)
    else if c == 'r' then closeLiteral [c] (splitHashed rest)
    else if c.isDigit then some (splitNumber text)
    else if c == 'b' || c == 'c' then
      match rest with
      | '"' :: rest => closeLiteral [c, '"'] (splitQuoted '"' rest)
      | 'r' :: rest => closeLiteral [c, 'r'] (splitHashed rest)
      | '\'' :: rest => if c == 'b' then closeLiteral [c, '\''] (splitSingle rest) else none
      | _ => none
    else none

/-! ### Words and marks -/

/-- The word at the front of a text, which may be marked as no keyword by `r#`,
and the rest. -/
def splitWord (text : List Char) : Option Split :=
  match text with
  | 'r' :: '#' :: rest =>
    if beginsWord rest then some ((splitWhile continuesWord rest).map (['r', '#'] ++ ·) id)
    else some (['r'], '#' :: rest)
  | rest => if beginsWord rest then some (splitWhile continuesWord rest) else none

/-- Whether a character is a punctuation character. -/
def isMark (c : Char) : Bool := "~!@#$%^&*-=+|;:,<.>/?'".toList.contains c

/-- Whether a text begins with a punctuation character that belongs to no comment. -/
def beginsMark (text : List Char) : Bool :=
  match text with
  | '/' :: '/' :: _ => false
  | '/' :: '*' :: _ => false
  | c :: _ => isMark c
  | [] => false

/-- What is at the front of a text: a lifetime, a word, a bracket or a mark. -/
def splitOther (c : Char) (rest : List Char) : Token × List Char :=
  match if c == '\'' then splitWord rest else none with
  | some (name, rest) => (.lifetime (String.ofList (c :: name)), rest)
  | none =>
    match splitWord (c :: rest) with
    | some (name, rest) => (.word (String.ofList name), rest)
    | none =>
      if c == '(' || c == '[' || c == '{' then (.opening c, rest)
      else if c == ')' || c == ']' || c == '}' then (.closing c, rest)
      else (.mark c (beginsMark rest), rest)

/-- What the front of a text that is not empty stands for, and the rest of it,
which is shorter. -/
def splitFront (c : Char) (rest : List Char) : List Token × List Char :=
  if isGap c then ([], rest)
  else
    match splitComment (c :: rest) with
    | some (tokens, rest) => (tokens, rest)
    | none =>
      match splitLiteral (c :: rest) with
      | some (text, rest) => ([.literal (String.ofList text)], rest)
      | none => (splitOther c rest).map (fun token => [token]) id

/-- The tokens at the first `fuel` fronts of a text. -/
def tokensWithin : Nat → List Char → List Token
  | 0, _ => []
  | _, [] => []
  | fuel + 1, c :: rest =>
    let (tokens, rest) := splitFront c rest
    tokens ++ tokensWithin fuel rest

/-- The tokens of a text. Every front is at least one character long. -/
def tokensOf (text : String) : List Token :=
  let text := text.toList
  tokensWithin text.length text

/-! ### Values of literals -/

/-- The value of a hexadecimal digit. -/
def hexValue (c : Char) : Nat :=
  if c.isDigit then c.toNat - '0'.toNat else c.toLower.toNat - 'a'.toNat + 10

/-- The character with a hexadecimal code. -/
def codedChar (digits : List Char) : Char :=
  Char.ofNat (digits.foldl (fun code c => 16 * code + hexValue c) 0)

/-- The character that a letter after a backslash stands for. -/
def letterEscape (c : Char) : Char :=
  if c == 'n' then '\n' else if c == 'r' then '\r' else if c == 't' then '\t'
  else if c == '0' then '\x00' else c

/-- Whether a character is passed over after an escaped end of a line. -/
def isBlank (c : Char) : Bool := c == ' ' || c == '\t' || c == '\n' || c == '\r'

/-- What an escape stands for, from the character after its backslash on, and
the rest. -/
def splitEscape (text : List Char) : Split :=
  match text with
  | [] => ([], [])
  | 'x' :: high :: low :: rest => ([codedChar [high, low]], rest)
  | 'u' :: '{' :: rest =>
    let (digits, rest) := splitWhile (· != '}') rest
    ([codedChar (digits.filter (· != '_'))], rest.drop 1)
  | c :: rest => if c == '\n' || c == '\r' then ([], rest.dropWhile isBlank)
    else ([letterEscape c], rest)

/-- What the first `fuel` characters and escapes of a quoted text stand for, up
to its closing quote. -/
def quotedWithin : Nat → List Char → List Char
  | 0, _ => []
  | _, [] => []
  | fuel + 1, c :: rest =>
    if c == '"' then []
    else if c == '\\' then
      let (found, rest) := splitEscape rest
      found ++ quotedWithin fuel rest
    else if c == '\r' && rest.head? == some '\n' then quotedWithin fuel rest
    else c :: quotedWithin fuel rest

/-- What stands between the outermost quotes of a text. -/
def betweenQuotes (text : List Char) : List Char :=
  let inside := (text.dropWhile (· != '"')).drop 1
  ((inside.reverse.dropWhile (· != '"')).drop 1).reverse

/-- The text that a literal stands for; nothing if it stands for something else. -/
def stringValue (literal : String) : Option String :=
  match literal.toList with
  | '"' :: rest => some (String.ofList (quotedWithin rest.length rest))
  | 'r' :: rest => some (String.ofList (betweenQuotes rest))
  | _ => none

/-- Whether a literal is a number. -/
def isNumber (literal : String) : Bool := (literal.toList.headD ' ').isDigit

end TernarySynth.ItemToken
