/-!
# Message templates

The message of an error is a template: text in which a name between braces
stands for an argument, by itself or followed by a colon and a format. A field
without a name is written by its index, and `nameFields` gives these fields the
names `f0`, `f1` and so on. A name counts as used in a template where one of
its two openings occurs, whatever stands around it.
-/

namespace TernarySynth.MessageTemplate

/-- The text of a template. -/
abbrev Template := List Char

/-- Replace a pattern wherever it occurs, from the left; the next `skipped`
characters belong to an occurrence that has been replaced. -/
def replaceFrom (pattern replacement : Template) : Nat → Template → Template
  | _, [] => []
  | skipped + 1, _ :: rest => replaceFrom pattern replacement skipped rest
  | 0, c :: rest =>
    if pattern.isPrefixOf (c :: rest) then
      replacement ++ replaceFrom pattern replacement (pattern.length - 1) rest
    else c :: replaceFrom pattern replacement 0 rest

/-- Replace a non-empty pattern wherever it occurs, from the left. -/
def replaceAll (pattern replacement template : Template) : Template :=
  replaceFrom pattern replacement 0 template

/-- Whether a pattern occurs in a text. -/
def occursIn (pattern : Template) : Template → Bool
  | [] => pattern.isEmpty
  | c :: rest => pattern.isPrefixOf (c :: rest) || occursIn pattern rest

/-- A placeholder without a format. -/
def plainPlaceholder (name : Template) : Template := '{' :: (name ++ ['}'])

/-- The beginning of a placeholder with a format. -/
def formatOpening (name : Template) : Template := '{' :: (name ++ [':'])

/-- Whether a template uses an argument. -/
def references (template name : Template) : Bool :=
  occursIn (plainPlaceholder name) template || occursIn (formatOpening name) template

/-- The index of a field as text. -/
def indexText (index : Nat) : Template := (toString index).toList

/-- The name that a field gets. -/
def fieldName (index : Nat) : Template := 'f' :: indexText index

/-- Give the field with an index its name. -/
def nameField (template : Template) (index : Nat) : Template :=
  replaceAll (formatOpening (indexText index)) (formatOpening (fieldName index))
    (replaceAll (plainPlaceholder (indexText index)) (plainPlaceholder (fieldName index)) template)

/-- Give the first `count` fields their names, the last of them first. -/
def nameFields (template : Template) : Nat → Template
  | 0 => template
  | count + 1 => nameFields (nameField template count) count

end TernarySynth.MessageTemplate
