import Mathlib.Data.List.Basic
import TernarySynth.ErrorImpl

/-!
# The pieces of a template

A template is made of ordinary characters, escaped braces and placeholders, but the fields
get their names by replacing text, and the arguments are found by searching for text. All
the replacements together write an `f` behind those braces that the index of a field
follows, and then a closing brace or a colon. For a placeholder this is what has to be
done. It is the wrong thing for the second half of an escaped brace; so the template keeps
its meaning exactly where no escaped brace stands before such a text.
-/

namespace TernarySynth.Proofs.TemplatePieces

open MessageTemplate

section Marking

/-- Write an `f` behind every brace that is followed by a text of some kind. -/
def marked (follows : Template → Bool) : Template → Template
  | [] => []
  | c :: rest =>
    if c = '{' ∧ follows rest = true then '{' :: 'f' :: marked follows rest
    else c :: marked follows rest

/-- Whether a text begins with a name and then a closing brace or a colon. -/
def beginsWith (name text : Template) : Bool :=
  (name ++ ['}']).isPrefixOf text || (name ++ [':']).isPrefixOf text

variable {follows first second : Template → Bool} {word : Template}

/-- Where there is no opening brace nothing is marked. -/
theorem marked_append (h : '{' ∉ word) (text : Template) :
    marked follows (word ++ text) = word ++ marked follows text := by
  induction word with
  | nil => rfl
  | cons c word ih =>
    rw [List.mem_cons, not_or] at h
    have hc : ¬ (c = '{' ∧ follows (word ++ text) = true) := fun hm => h.1 hm.1.symm
    rw [List.cons_append, marked, if_neg hc, ih h.2, List.cons_append]

/-- A text goes on in the same way, up to the next opening brace, when it is marked. -/
theorem isPrefixOf_marked (h : '{' ∉ word) (text : Template) :
    word.isPrefixOf (marked follows text) = word.isPrefixOf text := by
  induction text generalizing word with
  | nil => rfl
  | cons c text ih =>
    cases word with
    | nil => rfl
    | cons d word =>
      rw [List.mem_cons, not_or] at h
      by_cases hm : c = '{' ∧ follows text = true
      · have hd : (d == '{') = false := beq_eq_false_iff_ne.mpr (Ne.symm h.1)
        rw [marked, if_pos hm, hm.1]
        simp only [List.isPrefixOf_cons_cons, hd, Bool.false_and]
      · rw [marked, if_neg hm]
        simp only [List.isPrefixOf_cons_cons, ih h.2]

/-- Marking twice marks what either of the two marks. -/
theorem marked_marked (blind : ∀ follows text, second (marked follows text) = second text)
    (fresh : ∀ text, second ('f' :: text) = false) (text : Template) :
    marked second (marked first text) = marked (fun text => first text || second text) text := by
  induction text with
  | nil => rfl
  | cons c text ih =>
    by_cases hc : c = '{'
    · subst hc
      have hf : ¬ 'f' = '{' := by decide
      cases hfirst : first text with
      | true =>
        simp only [marked, hfirst, fresh, hf, Bool.true_or, and_self, and_false, false_and,
          if_true, if_false, Bool.false_eq_true, ih]
      | false =>
        simp only [marked, hfirst, blind, Bool.false_or, and_false, true_and, if_false,
          Bool.false_eq_true, ih]
    · simp only [marked, hc, false_and, if_false, ih]

/-- The characters of an occurrence that has been replaced are skipped. -/
theorem replaceFrom_skipped (pattern replacement : Template) (skipped : Nat) (text : Template) :
    replaceFrom pattern replacement skipped text =
      replaceFrom pattern replacement 0 (text.drop skipped) := by
  induction skipped generalizing text with
  | zero => rfl
  | succ skipped ih =>
    cases text with
    | nil => rfl
    | cons c text => exact ih text

/-- Replacing a brace and a word by the brace, an `f` and the word marks the braces that the
word follows. -/
theorem replaceAll_eq_marked (h : '{' ∉ word) (text : Template) :
    replaceAll ('{' :: word) ('{' :: 'f' :: word) text = marked word.isPrefixOf text := by
  unfold replaceAll
  induction hn : text.length using Nat.strongRecOn generalizing text with
  | ind n ih =>
    cases text with
    | nil => rfl
    | cons c text =>
      rw [List.length_cons] at hn
      by_cases hm : c = '{' ∧ word.isPrefixOf text = true
      · obtain ⟨rfl, hword⟩ := hm
        obtain ⟨rest, rfl⟩ := List.isPrefixOf_iff_prefix.mp hword
        have hlength : rest.length < n := by
          rw [List.length_append] at hn
          omega
        have hrest := ih rest.length hlength rest rfl
        have hfound : List.isPrefixOf ('{' :: word) ('{' :: (word ++ rest)) = true := by
          simp only [List.isPrefixOf_cons_cons, beq_self_eq_true, Bool.true_and, hword]
        rw [replaceFrom, if_pos hfound, replaceFrom_skipped, marked, if_pos ⟨rfl, hword⟩,
          marked_append h, List.length_cons, Nat.add_sub_cancel, List.drop_left, hrest]
        rfl
      · have hnone : ¬ List.isPrefixOf ('{' :: word) (c :: text) = true := by
          simp only [List.isPrefixOf_cons_cons, Bool.and_eq_true, beq_iff_eq]
          rintro ⟨rfl, hword⟩
          exact hm ⟨rfl, hword⟩
        rw [replaceFrom, if_neg hnone, marked, if_neg hm, ih text.length (by omega) text rfl]

end Marking

section Indices

/-- The text of an index consists of its digits. -/
theorem indexText_eq (index : Nat) : indexText index = Nat.toDigits 10 index := by
  rw [indexText, Nat.toString_eq_ofList_toDigits, String.toList_ofList]

/-- It has nothing but digits. -/
theorem isDigit_of_mem {index : Nat} {c : Char} (h : c ∈ indexText index) : c.isDigit = true := by
  rw [indexText_eq] at h
  exact Nat.isDigit_of_mem_toDigits (by decide) (by decide) h

/-- It begins with a digit. -/
theorem indexText_eq_cons (index : Nat) :
    ∃ d rest, indexText index = d :: rest ∧ d.isDigit = true := by
  cases h : indexText index with
  | nil =>
    rw [indexText_eq] at h
    exact absurd h Nat.toDigits_ne_nil
  | cons d rest => exact ⟨d, rest, rfl, isDigit_of_mem (h ▸ List.mem_cons_self)⟩

/-- Different indices have different texts. -/
theorem indexText_inj {index other : Nat} (h : indexText index = indexText other) :
    index = other := by
  rw [indexText_eq, indexText_eq] at h
  rw [← @Nat.ofDigitChars_ten_toDigits index, h, Nat.ofDigitChars_ten_toDigits]

/-- So it has no brace. -/
theorem not_mem_indexText (index : Nat) : '{' ∉ indexText index :=
  fun hm => absurd (isDigit_of_mem hm) (by decide)

/-- A name without an opening brace has none with what ends it, either. -/
theorem not_mem_ended {name : Template} (h : '{' ∉ name) :
    '{' ∉ name ++ ['}'] ∧ '{' ∉ name ++ [':'] := by
  simp [h]

/-- Marking does not change whether a text begins with a name without a brace. -/
theorem beginsWith_marked {follows : Template → Bool} {name : Template} (h : '{' ∉ name)
    (text : Template) : beginsWith name (marked follows text) = beginsWith name text := by
  obtain ⟨hclosed, hformat⟩ := not_mem_ended h
  rw [beginsWith, isPrefixOf_marked hclosed, isPrefixOf_marked hformat, beginsWith]

/-- A text that begins with a name begins with its first character. -/
theorem beginsWith_cons (c d : Char) (name text : Template) :
    beginsWith (c :: name) (d :: text) = (c == d && beginsWith name text) := by
  simp only [beginsWith, List.cons_append, List.isPrefixOf_cons_cons, Bool.and_or_distrib_left]

/-- A text that begins with an index begins with a digit. -/
theorem beginsWith_index_cons {c : Char} (h : c.isDigit = false) (index : Nat)
    (text : Template) : beginsWith (indexText index) (c :: text) = false := by
  obtain ⟨d, rest, hindex, hd⟩ := indexText_eq_cons index
  have hne : (d == c) = false := beq_eq_false_iff_ne.mpr fun he => by
    rw [he, h] at hd
    cases hd
  rw [hindex, beginsWith_cons, hne, Bool.false_and]

/-- What a text begins with, written out. -/
theorem beginsWith_iff {name text : Template} : beginsWith name text = true ↔
    ∃ stop rest, (stop = '}' ∨ stop = ':') ∧ text = name ++ stop :: rest := by
  simp only [beginsWith, Bool.or_eq_true, List.isPrefixOf_iff_prefix]
  constructor
  · rintro (⟨rest, rfl⟩ | ⟨rest, rfl⟩)
    · exact ⟨'}', rest, .inl rfl, List.append_cons .. |>.symm⟩
    · exact ⟨':', rest, .inr rfl, List.append_cons .. |>.symm⟩
  · rintro ⟨stop, rest, rfl | rfl, rfl⟩
    · exact .inl ⟨rest, (List.append_cons ..).symm⟩
    · exact .inr ⟨rest, (List.append_cons ..).symm⟩

/-- The digits a text begins with are those of the index it begins with. -/
theorem takeWhile_of_beginsWith {index : Nat} {text : Template}
    (h : beginsWith (indexText index) text = true) :
    text.takeWhile Char.isDigit = indexText index := by
  obtain ⟨stop, rest, hstop, rfl⟩ := beginsWith_iff.mp h
  have hdigit : ¬ stop.isDigit = true := by
    rcases hstop with rfl | rfl <;> decide
  rw [List.takeWhile_append_of_pos fun _ hc => isDigit_of_mem hc,
    List.takeWhile_cons_of_neg hdigit, List.append_nil]

/-- So a text begins with one index at most. -/
theorem index_unique {index other : Nat} {text : Template}
    (h : beginsWith (indexText index) text = true)
    (ho : beginsWith (indexText other) text = true) : index = other :=
  indexText_inj (by rw [← takeWhile_of_beginsWith h, takeWhile_of_beginsWith ho])

/-- The name of a field has no brace. -/
theorem not_mem_fieldName (index : Nat) : '{' ∉ fieldName index := by
  simp [fieldName, not_mem_indexText]

/-- A text that begins with an index does not begin with the name of a field. -/
theorem field_ne_index {index other : Nat} {text : Template}
    (h : beginsWith (indexText other) text = true) :
    beginsWith (fieldName index) text = false := by
  cases text with
  | nil => rfl
  | cons c text =>
    have hc : c ≠ 'f' := fun he => by
      rw [he, beginsWith_index_cons (by decide)] at h
      cases h
    rw [fieldName, beginsWith_cons, beq_eq_false_iff_ne.mpr hc.symm, Bool.false_and]

/-- Whether a text begins with the index of one of the first `count` fields. -/
def indexed (count : Nat) (text : Template) : Bool :=
  (List.range count).any fun index => beginsWith (indexText index) text

theorem indexed_iff {count : Nat} {text : Template} : indexed count text = true ↔
    ∃ index < count, beginsWith (indexText index) text = true := by
  simp only [indexed, List.any_eq_true, List.mem_range]

theorem indexed_eq_false_iff {count : Nat} {text : Template} : indexed count text = false ↔
    ∀ index < count, beginsWith (indexText index) text = false := by
  simp only [indexed, List.any_eq_false, List.mem_range, Bool.not_eq_true]

theorem indexed_cons {c : Char} (h : c.isDigit = false) (count : Nat) (text : Template) :
    indexed count (c :: text) = false := by
  simp [indexed, beginsWith_index_cons h]

theorem indexed_marked (follows : Template → Bool) (count : Nat) (text : Template) :
    indexed count (marked follows text) = indexed count text := by
  simp only [indexed, beginsWith_marked (not_mem_indexText _)]

/-- A field gets its name by a mark at the braces that its index follows. -/
theorem nameField_eq_marked (text : Template) (index : Nat) :
    nameField text index = marked (beginsWith (indexText index)) text := by
  obtain ⟨hclosed, hformat⟩ := not_mem_ended (not_mem_indexText index)
  have hfresh (text : Template) :
      (indexText index ++ [':']).isPrefixOf ('f' :: text) = false := by
    have hnone := beginsWith_index_cons (by decide : 'f'.isDigit = false) index text
    rw [beginsWith, Bool.or_eq_false_iff] at hnone
    exact hnone.2
  calc nameField text index
      = marked (indexText index ++ [':']).isPrefixOf
          (marked (indexText index ++ ['}']).isPrefixOf text) := by
        rw [← replaceAll_eq_marked hclosed, ← replaceAll_eq_marked hformat]
        rfl
    _ = marked (beginsWith (indexText index)) text :=
        marked_marked (fun _ text => isPrefixOf_marked hformat text) hfresh text

/-- All fields get their names by the marks at the braces that any of their indices
follows. -/
theorem nameFields_eq_marked (count : Nat) (text : Template) :
    nameFields text count = marked (indexed count) text := by
  induction count generalizing text with
  | zero =>
    have hnone (text : Template) : marked (indexed 0) text = text := by
      induction text with
      | nil => rfl
      | cons c text ih => simpa [marked, indexed] using ih
    rw [nameFields, hnone]
  | succ count ih =>
    have hlast (text : Template) :
        (beginsWith (indexText count) text || indexed count text) = indexed (count + 1) text := by
      rw [indexed, indexed, List.range_succ, List.any_append, List.any_cons, List.any_nil,
        Bool.or_false, Bool.or_comm]
    rw [nameFields, ih, nameField_eq_marked, marked_marked
      (fun follows => indexed_marked follows count)
      (indexed_cons (by decide : 'f'.isDigit = false) count), funext hlast]

end Indices

section Pieces

/-- A character that is not a brace. -/
def Ordinary (c : Char) : Prop := c ≠ '{' ∧ c ≠ '}'

instance : DecidablePred Ordinary := fun _ => inferInstanceAs (Decidable (_ ∧ _))

/-- What stands behind the colon of a placeholder. -/
structure Format where
  /-- Its characters. -/
  text : Template
  /-- There is no brace among them. -/
  ordinary : ∀ c ∈ text, Ordinary c

/-- A piece of a template for an item with `count` fields. -/
inductive Piece (count : Nat) where
  /-- A character that stands for itself. -/
  | character (c : Char) (ordinary : Ordinary c)
  /-- An escaped opening brace. -/
  | opening
  /-- An escaped closing brace. -/
  | closing
  /-- The place of a field. -/
  | placeholder (index : Fin count) (format : Option Format)

variable {count : Nat}

/-- The end of a placeholder. -/
def formatText : Option Format → Template
  | none => ['}']
  | some format => ':' :: (format.text ++ ['}'])

/-- The text of a piece where a field has the given name. -/
def Piece.text (name : Nat → Template) : Piece count → Template
  | .character c _ => [c]
  | .opening => ['{', '{']
  | .closing => ['}', '}']
  | .placeholder index format => '{' :: (name index ++ formatText format)

/-- The text of a template where a field has the given name. -/
def written (name : Nat → Template) (pieces : List (Piece count)) : Template :=
  pieces.flatMap (Piece.text name)

/-- The field whose place a piece is. -/
def Piece.index? : Piece count → Option Nat
  | .placeholder index _ => some index
  | _ => none

/-- The fields that have a place in a template. -/
def indices (pieces : List (Piece count)) : List Nat := pieces.filterMap Piece.index?

/-- Whether the second half of an escaped brace looks like the place of a field: the text
behind it begins with the name of the field. -/
def lookalike (name : Template) : List (Piece count) → Bool
  | [] => false
  | .opening :: pieces => beginsWith name (written indexText pieces) || lookalike name pieces
  | _ :: pieces => lookalike name pieces

@[simp]
theorem written_nil (name : Nat → Template) : written name ([] : List (Piece count)) = [] := rfl

@[simp]
theorem written_cons (name : Nat → Template) (piece : Piece count)
    (pieces : List (Piece count)) :
    written name (piece :: pieces) = piece.text name ++ written name pieces := rfl

/-- Nothing but an escaped brace can look like a place. -/
theorem lookalike_cons {piece : Piece count} (h : piece ≠ .opening) (name : Template)
    (pieces : List (Piece count)) :
    lookalike name (piece :: pieces) = lookalike name pieces := by
  cases piece with
  | opening => exact absurd rfl h
  | _ => rfl

/-- The end of a placeholder has no opening brace. -/
theorem not_mem_formatText (format : Option Format) : '{' ∉ formatText format := by
  cases format with
  | none => decide
  | some format =>
    have hformat : '{' ∉ format.text := fun hm => (format.ordinary _ hm).1 rfl
    simp [formatText, hformat]

/-- Behind the brace of a placeholder stands the index of its field. -/
theorem beginsWith_placeholder (index : Nat) (format : Option Format) (text : Template) :
    beginsWith (indexText index) (indexText index ++ formatText format ++ text) = true := by
  refine beginsWith_iff.mpr ?_
  cases format with
  | none => exact ⟨'}', text, .inl rfl, by simp [formatText]⟩
  | some format =>
    exact ⟨':', format.text ++ '}' :: text, .inr rfl, by simp [formatText]⟩

/-- The first character does not depend on the names of the fields. -/
theorem head_written (name other : Nat → Template) {pieces : List (Piece count)} :
    (written name pieces).head? = (written other pieces).head? := by
  cases pieces with
  | nil => rfl
  | cons piece pieces => cases piece <;> rfl

/-- Pieces whose text begins with the index of a field do not begin with an `f`, whatever the
fields are called. -/
theorem written_ne_marked {pieces : List (Piece count)}
    (h : indexed count (written indexText pieces) = true) (text : Template) :
    written fieldName pieces ≠ 'f' :: text := by
  intro he
  obtain ⟨index, -, hindex⟩ := indexed_iff.mp h
  have hhead : (written indexText pieces).head? = some 'f' := by
    rw [head_written _ fieldName, he]
    rfl
  obtain ⟨rest, hrest⟩ := List.head?_eq_some_iff.mp hhead
  rw [hrest, beginsWith_index_cons (by decide)] at hindex
  cases hindex

/-- The first half of an escaped brace is not marked; the second half is, where an index
follows. -/
theorem marked_opening (text : Template) :
    marked (indexed count) ('{' :: '{' :: text) = '{' :: '{' ::
      if indexed count text = true then 'f' :: marked (indexed count) text
      else marked (indexed count) text := by
  have hfirst : indexed count ('{' :: text) = false := indexed_cons (by decide) count text
  rw [marked, if_neg (by simp [hfirst]), marked]
  by_cases htext : indexed count text = true
  · rw [if_pos ⟨rfl, htext⟩, if_pos htext]
  · rw [if_neg (by simp [htext]), if_neg htext]

/-- The marks give every other piece the text it should have. -/
theorem marked_piece {piece : Piece count} (h : piece ≠ .opening) (text : Template) :
    marked (indexed count) (piece.text indexText ++ text) =
      piece.text fieldName ++ marked (indexed count) text := by
  cases piece with
  | character c ordinary =>
    exact marked_append (fun hm => ordinary.1 (List.mem_singleton.mp hm).symm) text
  | opening => exact absurd rfl h
  | closing =>
    have hbrace : '{' ∉ ['}', '}'] := by decide
    exact marked_append hbrace text
  | placeholder index format =>
    have hindex : indexed count (indexText index ++ formatText format ++ text) = true :=
      indexed_iff.mpr ⟨index, index.isLt, beginsWith_placeholder ..⟩
    have hbrace : '{' ∉ indexText index ++ formatText format := by
      simp [not_mem_formatText, not_mem_indexText]
    simp only [Piece.text, List.cons_append, marked, hindex, and_self, if_true,
      marked_append hbrace]
    rfl

/-- A template is named as it should be exactly where no escaped brace looks like the place
of a field. -/
theorem named_iff (pieces : List (Piece count)) :
    nameFields (written indexText pieces) count = written fieldName pieces ↔
      ∀ index < count, lookalike (indexText index) pieces = false := by
  rw [nameFields_eq_marked]
  induction pieces with
  | nil => simp [marked, lookalike]
  | cons piece pieces ih =>
    by_cases hpiece : piece = .opening
    · subst hpiece
      have hsplit : (∀ index < count, lookalike (indexText index) (.opening :: pieces) = false) ↔
          indexed count (written indexText pieces) = false ∧
            ∀ index < count, lookalike (indexText index) pieces = false := by
        simp only [lookalike, Bool.or_eq_false_iff, imp_and, forall_and, indexed_eq_false_iff]
      rw [hsplit, ← ih]
      show marked (indexed count) ('{' :: '{' :: written indexText pieces) =
        '{' :: '{' :: written fieldName pieces ↔ _
      rw [marked_opening]
      by_cases htext : indexed count (written indexText pieces) = true
      · have hne := (written_ne_marked htext (marked (indexed count)
          (written indexText pieces))).symm
        simp [htext, hne]
      · simp [htext]
    · simp only [lookalike_cons hpiece]
      rw [written_cons, written_cons, marked_piece hpiece, List.append_right_inj, ih]

end Pieces

section References

variable {count : Nat} {follows : Template → Bool} {word : Template}

/-- Whether a text has a brace that is followed by a text of some kind. -/
def braceBefore (follows : Template → Bool) : Template → Bool
  | [] => false
  | c :: rest => (c == '{' && follows rest) || braceBefore follows rest

theorem braceBefore_cons {c : Char} (h : c ≠ '{') (text : Template) :
    braceBefore follows (c :: text) = braceBefore follows text := by
  rw [braceBefore, beq_eq_false_iff_ne.mpr h, Bool.false_and, Bool.false_or]

theorem braceBefore_append (h : '{' ∉ word) (text : Template) :
    braceBefore follows (word ++ text) = braceBefore follows text := by
  induction word with
  | nil => rfl
  | cons c word ih =>
    rw [List.mem_cons, not_or] at h
    rw [List.cons_append, braceBefore_cons (Ne.symm h.1), ih h.2]

theorem occursIn_eq_braceBefore (word text : Template) :
    occursIn ('{' :: word) text = braceBefore word.isPrefixOf text := by
  induction text with
  | nil => rfl
  | cons c text ih =>
    rw [occursIn, ih, braceBefore, List.isPrefixOf_cons_cons, Bool.beq_comm]

theorem braceBefore_or (first second : Template → Bool) (text : Template) :
    (braceBefore first text || braceBefore second text) =
      braceBefore (fun text => first text || second text) text := by
  induction text with
  | nil => rfl
  | cons c text ih =>
    simp only [braceBefore, ← ih, Bool.and_or_distrib_left]
    ac_rfl

/-- A name is used where it follows a brace. -/
theorem references_eq_braceBefore (text name : Template) :
    references text name = braceBefore (beginsWith name) text := by
  rw [references, plainPlaceholder, formatOpening, occursIn_eq_braceBefore,
    occursIn_eq_braceBefore, braceBefore_or]
  rfl

/-- Behind the second half of an escaped brace the name of a field is found where its index
stood and was named, or where the name itself stood. -/
theorem beginsWith_second (index : Nat) (text : Template) :
    beginsWith (fieldName index)
        (if indexed count text = true then 'f' :: marked (indexed count) text
          else marked (indexed count) text) = true ↔
      (index < count ∧ beginsWith (indexText index) text = true) ∨
        beginsWith (fieldName index) text = true := by
  by_cases htext : indexed count text = true
  · obtain ⟨other, hother, hbegins⟩ := indexed_iff.mp htext
    have hmarked : beginsWith (fieldName index) ('f' :: marked (indexed count) text) =
        beginsWith (indexText index) text := by
      rw [fieldName, beginsWith_cons, beq_self_eq_true, Bool.true_and,
        beginsWith_marked (not_mem_indexText index)]
    have hbound (h : beginsWith (indexText index) text = true) : index < count :=
      index_unique hbegins h ▸ hother
    rw [if_pos htext, hmarked, field_ne_index hbegins]
    simpa using hbound
  · have hnone : ¬ (index < count ∧ beginsWith (indexText index) text = true) :=
      fun h => htext (indexed_iff.mpr ⟨index, h.1, h.2⟩)
    rw [if_neg htext, beginsWith_marked (not_mem_fieldName index)]
    simp only [hnone, false_or]

/-- A placeholder with the name of one field is not that of another. -/
theorem beginsWith_named (index other : Nat) (format : Option Format) (text : Template) :
    beginsWith (fieldName index) (fieldName other ++ formatText format ++ text) = true ↔
      index = other := by
  have hother := beginsWith_placeholder other format text
  have hindex : beginsWith (fieldName index) (fieldName other ++ formatText format ++ text) =
      beginsWith (indexText index) (indexText other ++ formatText format ++ text) := by
    simp only [fieldName, List.cons_append, beginsWith_cons, beq_self_eq_true, Bool.true_and]
  rw [hindex]
  constructor
  · exact fun h => index_unique h hother
  · rintro rfl
    exact hother

/-- After the fields have got their names, the template uses that of a field exactly where
the field has a place or an escaped brace looks like one. -/
theorem references_named (index : Nat) (pieces : List (Piece count)) :
    references (nameFields (written indexText pieces) count) (fieldName index) = true ↔
      index ∈ indices pieces ∨ (index < count ∧ lookalike (indexText index) pieces = true) ∨
        lookalike (fieldName index) pieces = true := by
  rw [references_eq_braceBefore, nameFields_eq_marked]
  induction pieces with
  | nil => simp [marked, braceBefore, indices, lookalike]
  | cons piece pieces ih =>
    cases piece with
    | character c ordinary =>
      rw [written_cons, marked_piece (by simp), Piece.text, List.singleton_append,
        braceBefore_cons ordinary.1, ih]
      rfl
    | closing =>
      have hbrace : '{' ∉ ['}', '}'] := by decide
      rw [written_cons, marked_piece (by simp), Piece.text, braceBefore_append hbrace, ih]
      rfl
    | opening =>
      have hfirst (text : Template) : beginsWith (fieldName index) ('{' :: text) = false := by
        rw [fieldName, beginsWith_cons]
        rfl
      -- an `f` behind the brace changes what follows the brace, and nothing further on
      have hmark (text : Template) : braceBefore (beginsWith (fieldName index))
          (if indexed count text = true then 'f' :: marked (indexed count) text
            else marked (indexed count) text) =
          braceBefore (beginsWith (fieldName index)) (marked (indexed count) text) := by
        split
        · exact braceBefore_cons (by decide) _
        · rfl
      show braceBefore _ (marked (indexed count) ('{' :: '{' :: written indexText pieces)) = true ↔ _
      rw [marked_opening, braceBefore, braceBefore, hfirst, hmark]
      have hindices : indices (.opening :: pieces) = indices pieces := rfl
      simp only [beq_self_eq_true, Bool.true_and, Bool.false_or, Bool.or_eq_true, ih,
        beginsWith_second, lookalike, hindices]
      grind
    | placeholder other format =>
      have hbrace : '{' ∉ fieldName other ++ formatText format := by
        simp [not_mem_formatText, not_mem_fieldName]
      rw [written_cons, marked_piece (by simp), Piece.text, List.cons_append, braceBefore,
        braceBefore_append hbrace, Bool.or_eq_true, ih, beq_self_eq_true, Bool.true_and,
        beginsWith_named, ← or_assoc]
      have hindices : indices (.placeholder other format :: pieces) = ↑other :: indices pieces :=
        rfl
      rw [hindices, List.mem_cons]
      rfl

end References

section Parts

/-- What a template says at one place. -/
inductive Part where
  /-- To write a character. -/
  | text (c : Char)
  /-- To write an argument, in a format if there is one; what a format means is left open. -/
  | argument (name : Template) (format : Option Template)

/-- Where a reader of a template is. -/
inductive Reading where
  /-- In the text between the placeholders. -/
  | text
  /-- Behind a closing brace, which has to be the first half of an escaped one. -/
  | closed
  /-- Behind an opening brace and the beginning of a name. -/
  | name (begun : Template)
  /-- Behind the colon after a name, and the beginning of a format. -/
  | format (name begun : Template)

/-- Read a template on, from the left. -/
def partsFrom : Reading → Template → Option (List Part)
  | .text, [] => some []
  | _, [] => none
  | .text, c :: rest =>
    if c = '{' then partsFrom (.name []) rest
    else if c = '}' then partsFrom .closed rest
    else (partsFrom .text rest).map (Part.text c :: ·)
  | .closed, c :: rest =>
    if c = '}' then (partsFrom .text rest).map (Part.text '}' :: ·) else none
  | .name begun, c :: rest =>
    -- an opening brace is escaped by another one at once
    if c = '{' then
      if begun = [] then (partsFrom .text rest).map (Part.text '{' :: ·) else none
    else if c = '}' then (partsFrom .text rest).map (Part.argument begun none :: ·)
    else if c = ':' then partsFrom (.format begun []) rest
    else partsFrom (.name (begun ++ [c])) rest
  | .format name begun, c :: rest =>
    if c = '{' then none
    else if c = '}' then (partsFrom .text rest).map (Part.argument name (some begun) :: ·)
    else partsFrom (.format name (begun ++ [c])) rest

/-- Read a template; nothing if it is none. -/
def parts (template : Template) : Option (List Part) := partsFrom .text template

variable {count : Nat} {word : Template}

/-- What a piece says where the fields are arguments by their names. -/
def Piece.part : Piece count → Part
  | .character c _ => .text c
  | .opening => .text '{'
  | .closing => .text '}'
  | .placeholder index format => .argument (fieldName index) (format.map Format.text)

/-- A name is read to its end. -/
theorem partsFrom_name (h : ∀ c ∈ word, Ordinary c ∧ c ≠ ':') (begun text : Template) :
    partsFrom (.name begun) (word ++ text) = partsFrom (.name (begun ++ word)) text := by
  induction word generalizing begun with
  | nil => rw [List.nil_append, List.append_nil]
  | cons c word ih =>
    obtain ⟨⟨⟨hopening, hclosing⟩, hcolon⟩, hword⟩ := List.forall_mem_cons.mp h
    rw [List.cons_append, partsFrom, if_neg hopening, if_neg hclosing, if_neg hcolon, ih hword,
      List.append_assoc, List.singleton_append]

/-- So is a format. -/
theorem partsFrom_format (h : ∀ c ∈ word, Ordinary c) (name begun text : Template) :
    partsFrom (.format name begun) (word ++ text) =
      partsFrom (.format name (begun ++ word)) text := by
  induction word generalizing begun with
  | nil => rw [List.nil_append, List.append_nil]
  | cons c word ih =>
    obtain ⟨⟨hopening, hclosing⟩, hword⟩ := List.forall_mem_cons.mp h
    rw [List.cons_append, partsFrom, if_neg hopening, if_neg hclosing, ih hword,
      List.append_assoc, List.singleton_append]

/-- The name of a field is one that a reader takes as it is. -/
theorem ordinary_fieldName (index : Nat) : ∀ c ∈ fieldName index, Ordinary c ∧ c ≠ ':' := by
  have hname (c : Char) (hc : c.isDigit = true ∨ c = 'f') : Ordinary c ∧ c ≠ ':' := by
    refine ⟨⟨?_, ?_⟩, ?_⟩ <;> (rintro rfl; revert hc; decide)
  intro c hc
  rcases List.mem_cons.mp hc with hc | hc
  · exact hname c (.inr hc)
  · exact hname c (.inl (isDigit_of_mem hc))

/-- Every piece is read as what it says. -/
theorem partsFrom_piece (piece : Piece count) (text : Template) :
    partsFrom .text (piece.text fieldName ++ text) =
      (partsFrom .text text).map (piece.part :: ·) := by
  cases piece with
  | character c ordinary =>
    rw [Piece.text, List.singleton_append, partsFrom, if_neg ordinary.1, if_neg ordinary.2]
    rfl
  | opening => rfl
  | closing => rfl
  | placeholder index format =>
    rw [Piece.text, List.cons_append, List.append_assoc, partsFrom, if_pos rfl,
      partsFrom_name (ordinary_fieldName index), List.nil_append]
    cases format with
    | none => rfl
    | some format =>
      show partsFrom (.format (fieldName index) []) ((format.text ++ ['}']) ++ text) = _
      rw [List.append_assoc, partsFrom_format format.ordinary]
      rfl

/-- So is a template. -/
theorem parts_written (pieces : List (Piece count)) :
    parts (written fieldName pieces) = some (pieces.map Piece.part) := by
  induction pieces with
  | nil => rfl
  | cons piece pieces ih =>
    rw [parts, written_cons, partsFrom_piece]
    rw [parts] at ih
    rw [ih]
    rfl

end Parts

section Message

open ErrorImpl ErrorItem

variable {count : Nat}

/-- No escaped brace looks like the place of a field, by its index or by its name. -/
def Clear (pieces : List (Piece count)) : Prop :=
  ∀ index < count,
    lookalike (indexText index) pieces = false ∧ lookalike (fieldName index) pieces = false

/-- The arguments passed for a message: those of the fields that have a place in it, with
their values. -/
def passed (valueOf : String → String → String) (pieces : List (Piece count)) :
    List (String × String) :=
  ((List.range count).filter fun index => index ∈ indices pieces).map fun index =>
    (String.ofList (fieldName index), valueOf (String.ofList (fieldName index)) (toString index))

/-- The fields of a template that is clear get their names, and just those that have a place
are used. -/
theorem Clear.references_iff {pieces : List (Piece count)} (h : Clear pieces) {index : Nat}
    (hindex : index < count) :
    references (written fieldName pieces) (fieldName index) = true ↔ index ∈ indices pieces := by
  have hnamed := (named_iff pieces).mpr fun index hindex => (h index hindex).1
  rw [← hnamed, references_named]
  simp [h index hindex]

/-- The instruction that writes the message of an item with numbered fields. -/
theorem Clear.writeMessage_eq {pieces : List (Piece count)} (h : Clear pieces)
    {fields : List Field} (hcount : fields.length = count) (valueOf : String → String → String) :
    writeMessage (String.ofList (written indexText pieces)) (.tuple fields) valueOf =
      writeCall (String.ofList (written fieldName pieces)) (some (passed valueOf pieces)) := by
  subst hcount
  have hnamed := (named_iff pieces).mpr fun index hindex => (h index hindex).1
  have hused (index : Nat) (hindex : index ∈ List.range fields.length) :
      usesField (String.ofList (written fieldName pieces)) (String.ofList (fieldName index)) =
        decide (index ∈ indices pieces) := by
    rw [Bool.eq_iff_iff, decide_eq_true_iff, ← h.references_iff (List.mem_range.mp hindex),
      usesField, String.toList_ofList, String.toList_ofList]
  rw [passed, ← List.filterMap_eq_map, ← List.filterMap_eq_filter, List.filterMap_filterMap]
  simp only [writeMessage, String.toList_ofList, hnamed, List.filterMap_map]
  congr 2
  refine List.filterMap_congr fun index hindex => ?_
  rw [Function.comp_apply, hused index hindex, Option.guard]
  split <;> rfl

/-- Giving names to the fields of a template changes the placeholders, and nothing else,
exactly where no escaped brace is followed by the index of a field and a closing brace or a
colon. A field then counts as used where it has a place, and besides where an escaped brace
looks like one. A template without such braces is read as the same pieces, with the fields
as arguments by their names, and the instruction to write it passes just the fields that
have a place. -/
theorem naming_keeps_meaning (pieces : List (Piece count)) :
    (nameFields (written indexText pieces) count = written fieldName pieces ↔
      ∀ index < count, lookalike (indexText index) pieces = false) ∧
    (∀ index, references (nameFields (written indexText pieces) count) (fieldName index) = true ↔
      index ∈ indices pieces ∨ (index < count ∧ lookalike (indexText index) pieces = true) ∨
        lookalike (fieldName index) pieces = true) ∧
    (Clear pieces →
      parts (nameFields (written indexText pieces) count) = some (pieces.map Piece.part) ∧
      ∀ (fields : List Field) (valueOf : String → String → String), fields.length = count →
        writeMessage (String.ofList (written indexText pieces)) (.tuple fields) valueOf =
          writeCall (String.ofList (written fieldName pieces)) (some (passed valueOf pieces))) := by
  refine ⟨named_iff pieces, fun index => references_named index pieces, fun h => ⟨?_, ?_⟩⟩
  · rw [(named_iff pieces).mpr fun index hindex => (h index hindex).1, parts_written]
  · exact fun fields valueOf hcount => h.writeMessage_eq hcount valueOf

/-- A template whose second place stands between escaped braces. -/
def boxed : List (Piece 2) :=
  [.placeholder 0 none, .opening, .placeholder 1 (some ⟨['?'], by simp [Ordinary]⟩), .closing]

theorem naming_keeps_meaning_of_boxed :
    Clear boxed ∧
    parts (nameFields (written indexText boxed) 2) =
      some [.argument ['f', '0'] none, .text '{', .argument ['f', '1'] (some ['?']),
        .text '}'] ∧
    writeMessage (String.ofList (written indexText boxed))
        (.tuple [⟨"", "u8", []⟩, ⟨"", "u8", []⟩]) (fun name _ => name) =
      writeCall (String.ofList (written fieldName boxed))
        (some (passed (fun name _ => name) boxed)) := by
  have hclear : Clear boxed := by
    unfold Clear
    decide
  have hkept := (naming_keeps_meaning boxed).2.2 hclear
  exact ⟨hclear, hkept.1, hkept.2 _ _ rfl⟩

/-- A template without a place, whose escaped brace is followed by an index. -/
def escaped : List (Piece 1) := [.opening, .character '0' (by decide), .closing]

/-- The index of a field behind an escaped brace is named although it is no place, and the
field counts as used. -/
theorem escaped_index_is_named :
    nameFields (written indexText escaped) 1 ≠ written fieldName escaped ∧
    0 ∉ indices escaped ∧
    references (nameFields (written indexText escaped) 1) (fieldName 0) = true ∧
    parts (nameFields (written indexText escaped) 1) =
      some [.text '{', .text 'f', .text '0', .text '}'] := by
  refine ⟨by decide, by decide, by decide, rfl⟩

end Message

end TernarySynth.Proofs.TemplatePieces
