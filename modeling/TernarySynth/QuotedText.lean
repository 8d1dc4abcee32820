import TernarySynth.CharClass

/-!
# Quoted text

Text between quotes, in which everything that could be misread is escaped: the
quote itself, the backslash, tab, line ends and NUL by a letter, and characters
without a glyph of their own by their code. Text stands between double quotes
and a single character between single ones; the other kind of quote needs no
escape.
-/

namespace TernarySynth.QuotedText

open CharClass

/-- The lowercase hexadecimal digits of a number. -/
def hexDigits (n : Nat) : String := String.ofList (Nat.toDigits 16 n)

/-- The escape of a character by its code. -/
def escapeCode (c : Char) : String := "\\u\x7b" ++ hexDigits c.toNat ++ "\x7d"

/-- A character inside quotes of the given kind. -/
def escapeChar (quote : Char) (c : Char) : String :=
  if c = '\x00' then "\\0"
  else if c = '\t' then "\\t"
  else if c = '\r' then "\\r"
  else if c = '\n' then "\\n"
  else if c = '\\' then "\\\\"
  else if c = quote then String.ofList ['\\', c]
  else if isInvisible c then escapeCode c
  else String.singleton c

/-- Text between double quotes. -/
def quoteText (text : String) : String :=
  "\"" ++ String.join (text.toList.map (escapeChar '"')) ++ "\""

/-- A character between single quotes. -/
def quoteChar (c : Char) : String := "'" ++ escapeChar '\'' c ++ "'"

/-- Whether a text begins with an octal digit. -/
def startsOctal (text : List Char) : Bool :=
  match text with
  | [] => false
  | c :: _ => decide ('0'.toNat ≤ c.toNat) && decide (c.toNat ≤ '7'.toNat)

/-- The inside of a string literal in source text. NUL before an octal digit is
written in two digits, so that it cannot be taken for an octal escape. -/
def literalBody : List Char → String
  | [] => ""
  | c :: rest =>
    (if c = '\x00' ∧ startsOctal rest then "\\x00" else escapeChar '"' c) ++ literalBody rest

/-- A string literal in source text. -/
def literalText (text : String) : String := "\"" ++ literalBody text.toList ++ "\""

end TernarySynth.QuotedText
