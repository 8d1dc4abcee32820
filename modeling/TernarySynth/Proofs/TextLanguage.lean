import TernarySynth.Proofs.LoadedText
import TernarySynth.Proofs.TritPlaces

/-!
# The language of the loader

Which texts load, into which image, and with which error the others are refused, is said
here of the bytes of the cells alone. They have one answer, and the loader gives it. So
does a loader that goes over the text once, and meets blanks, offences and the end of
memory in whatever order they stand there.
-/

namespace TernarySynth.Proofs.TextLanguage

open TritWord CellCode MemoryImage SourceText
open CodeValues DecidedText LoadedText TritPlaces

section Answers

/-- A printable byte that names no instruction in its cell. -/
def Offends (i : Nat) (byte : UInt8) : Prop :=
  33 ≤ byte.toNat ∧ byte.toNat ≤ 126 ∧ decode false i byte.toNat = none

/-- None of the bytes offends that stand in the cells below a limit. -/
def Inoffensive (limit : Nat) (bytes : List UInt8) : Prop :=
  ∀ i < limit, ∀ byte, bytes[i]? = some byte → ¬ Offends i byte

/-- The bytes of the cells of a text that loads. -/
structure Loadable (bytes : List UInt8) : Prop where
  /-- There are the two cells that the filler starts from. -/
  wide : 2 ≤ bytes.length
  /-- There are no more cells than memory has. -/
  fits : bytes.length ≤ wordSize
  /-- Each byte that is printable decodes in its cell. -/
  sound : ∀ i byte, bytes[i]? = some byte → ¬ Offends i byte

/-- An image with the bytes of a text, and with filler behind them. -/
structure Holds (bytes : List UInt8) (image : Image) : Prop where
  /-- Memory is full. -/
  size : image.cells.size = 59049
  /-- Each byte is in its cell. -/
  text : ∀ i byte, bytes[i]? = some byte → image.read i = some byte.toNat
  /-- Every cell behind them is the combine of the two before it. -/
  filler : ∀ i, bytes.length ≤ i → i < wordSize → ∃ last before,
    image.read (i - 1) = some last ∧ image.read (i - 2) = some before ∧
      image.read i = some (combine last before)

/-- What a loader has to answer. -/
inductive Answer (bytes : List UInt8) : Except LoadError Image → Prop where
  /-- A text of the language is loaded. -/
  | loaded {image : Image} (loadable : Loadable bytes) (holds : Holds bytes image) :
    Answer bytes (.ok image)
  /-- The first offence inside memory is reported before anything else. -/
  | invalidCharacter {i : Nat} {byte : UInt8} (inside : i < wordSize)
    (found : bytes[i]? = some byte) (offends : Offends i byte) (first : Inoffensive i bytes) :
    Answer bytes (.error (.invalidCharacter i byte))
  /-- Without one, too many cells are. -/
  | tooLong (sound : Inoffensive wordSize bytes) (long : wordSize < bytes.length) :
    Answer bytes (.error (.tooLong bytes.length))
  /-- So are too few. -/
  | tooShort (sound : Inoffensive wordSize bytes) (short : bytes.length < 2) :
    Answer bytes (.error (.tooShort bytes.length))

variable {bytes : List UInt8} {image : Image}

/-- A byte may stand in a cell unless it offends there. -/
theorem isAdmissible_iff {i : Nat} {byte : UInt8} :
    isAdmissible i byte = true ↔ ¬ Offends i byte := by
  unfold isAdmissible Offends
  rw [Bool.or_eq_true, Bool.not_eq_true', ← Bool.not_eq_true, isPrintable_iff,
    Option.isSome_iff_ne_none, ← Classical.not_and_iff_not_or_not, and_assoc]

/-- A byte that may not stand in a cell offends there. -/
theorem offends_of_inadmissible {i : Nat} {byte : UInt8} (h : ¬ isAdmissible i byte = true) :
    Offends i byte :=
  Classical.not_not.mp (mt isAdmissible_iff.mpr h)

/-- Bytes that memory has room for are inoffensive below any limit if they are so in memory. -/
theorem Inoffensive.all (h : Inoffensive wordSize bytes) (fits : bytes.length ≤ wordSize) (i : Nat)
    (byte : UInt8) (hb : bytes[i]? = some byte) : ¬ Offends i byte :=
  h i (Nat.lt_of_lt_of_le (List.getElem?_eq_some_iff.mp hb).1 fits) byte hb

/-- Text and recurrence leave no choice of the image. -/
theorem Holds.unique (wide : 2 ≤ bytes.length) {image image' : Image} (h : Holds bytes image)
    (h' : Holds bytes image') : image = image' := by
  have hread : ∀ i, image.read i = image'.read i := by
    intro i
    induction i using Nat.strongRecOn with
    | ind i ih =>
      rcases Nat.lt_or_ge i bytes.length with hi | hi
      · have hb := List.getElem?_eq_getElem hi
        rw [h.text i _ hb, h'.text i _ hb]
      · rcases Nat.lt_or_ge i wordSize with hin | hout
        · obtain ⟨last, before, hlast, hbefore, hcell⟩ := h.filler i hi hin
          obtain ⟨last', before', hlast', hbefore', hcell'⟩ := h'.filler i hi hin
          cases hlast.symm.trans ((ih (i - 1) (by omega)).trans hlast')
          cases hbefore.symm.trans ((ih (i - 2) (by omega)).trans hbefore')
          rw [hcell, hcell']
        · unfold Image.read
          rw [Array.getElem?_eq_none (by rw [image.size_eq]; exact hout),
            Array.getElem?_eq_none (by rw [image'.size_eq]; exact hout)]
  cases image
  cases image'
  congr 1
  exact Array.ext_getElem? hread

/-- A byte is a word. -/
theorem byte_lt (byte : UInt8) : byte.toNat < wordSize :=
  Nat.lt_trans byte.toNat_lt (by decide)

/-- An image of a text consists of words. -/
theorem Holds.lt (h : Holds bytes image) {a v : Word} (hread : image.read a = some v) :
    v < wordSize := by
  rcases Nat.lt_or_ge a bytes.length with ha | ha
  · have htext := h.text a _ (List.getElem?_eq_getElem ha)
    cases hread.symm.trans htext
    exact byte_lt _
  · have hin : a < wordSize := (Image.read_isSome_iff image a).mp (Option.isSome_of_eq_some hread)
    obtain ⟨last, before, -, -, hcell⟩ := h.filler a ha hin
    rw [Option.some.inj (hread.symm.trans hcell)]
    exact combine_lt last before

/-- The first offence is found in one place only. -/
theorem Inoffensive.le_of_offends {i j : Nat} {byte : UInt8} (h : Inoffensive i bytes)
    (found : bytes[j]? = some byte) (offends : Offends j byte) : i ≤ j :=
  Nat.le_of_not_lt fun hlt => h j hlt byte found offends

/-- There is one answer at most. -/
theorem Answer.unique {answer answer' : Except LoadError Image} (h : Answer bytes answer)
    (h' : Answer bytes answer') : answer = answer' := by
  cases h with
  | loaded loadable holds =>
    have hwide := loadable.wide
    have hfits := loadable.fits
    cases h' with
    | loaded _ holds' => rw [holds.unique hwide holds']
    | invalidCharacter _ found offends _ => exact absurd offends (loadable.sound _ _ found)
    | tooLong _ long => omega
    | tooShort _ short => omega
  | invalidCharacter inside found offends first =>
    cases h' with
    | loaded loadable _ => exact absurd offends (loadable.sound _ _ found)
    | invalidCharacter _ found' offends' first' =>
      cases Nat.le_antisymm (first.le_of_offends found' offends') (first'.le_of_offends found offends)
      cases found.symm.trans found'
      rfl
    | tooLong sound _ => exact absurd offends (sound _ inside _ found)
    | tooShort sound _ => exact absurd offends (sound _ inside _ found)
  | tooLong sound long =>
    have hwide : 2 < wordSize := by decide
    cases h' with
    | loaded loadable _ =>
      have hfits := loadable.fits
      omega
    | invalidCharacter inside found offends _ => exact absurd offends (sound _ inside _ found)
    | tooLong _ _ => rfl
    | tooShort _ short => omega
  | tooShort sound short =>
    have hwide : 2 < wordSize := by decide
    cases h' with
    | loaded loadable _ =>
      have hwide := loadable.wide
      omega
    | invalidCharacter inside found offends _ => exact absurd offends (sound _ inside _ found)
    | tooLong _ long => omega
    | tooShort _ _ => rfl

end Answers

section Filling

/-- Each cell of filler is the combine of the two before it. -/
theorem fill_filler (n : Nat) {cells : Array Word} (wide : 2 ≤ cells.size) (i : Nat)
    (behind : cells.size ≤ i) (inside : i < cells.size + n) : ∃ last before,
      (fill n cells)[i - 1]? = some last ∧ (fill n cells)[i - 2]? = some before ∧
        (fill n cells)[i]? = some (combine last before) := by
  induction n generalizing cells with
  | zero => omega
  | succ n ih =>
    have hsize : (cells.push (nextFiller cells)).size = cells.size + 1 := Array.size_push ..
    rcases Nat.eq_or_lt_of_le behind with hi | hi
    · obtain ⟨-, hkept⟩ := fill_getElem? n (cells.push (nextFiller cells))
      rw [hsize] at hkept
      have hold : ∀ j < cells.size, (fill (n + 1) cells)[j]? = some (cells.getD j 0) := by
        intro j hj
        rw [fill, hkept j (by omega), Array.getElem?_push_lt hj, Array.getD_eq_getD_getElem?,
          Array.getElem?_eq_getElem hj, Option.getD_some]
      rw [← hi]
      refine ⟨_, _, hold _ (by omega), hold _ (by omega), ?_⟩
      rw [fill, hkept _ (by omega), Array.getElem?_push_size, nextFiller]
    · rw [fill]
      exact ih (by omega) (by omega) (by omega)

/-- Bytes with filler behind them are an image of a text. -/
theorem holds_ofCells {bytes : List UInt8} (wide : 2 ≤ bytes.length)
    (fits : bytes.length ≤ wordSize) :
    Holds bytes (.ofCells (fill (wordSize - bytes.length) (bytes.map UInt8.toNat).toArray)) := by
  have hbytes : (bytes.map UInt8.toNat).toArray.size = bytes.length := by
    rw [List.size_toArray, List.length_map]
  obtain ⟨hsize, hkept⟩ :=
    fill_getElem? (wordSize - bytes.length) (bytes.map UInt8.toNat).toArray
  rw [hbytes] at hsize hkept
  rw [Nat.add_sub_of_le fits] at hsize
  constructor
  case size => exact Image.size_eq _
  case text =>
    intro i byte hb
    rw [read_ofCells hsize, hkept i (List.getElem?_eq_some_iff.mp hb).1, List.getElem?_toArray,
      List.getElem?_map, hb, Option.map_some]
  case filler =>
    intro i hi hin
    simp only [read_ofCells hsize]
    exact fill_filler _ (by rw [hbytes]; exact wide) i (by rw [hbytes]; exact hi)
      (by rw [hbytes]; omega)

end Filling

section Loading

variable {bytes : List UInt8}

/-- An offence that is reported is one, and the first. -/
theorem of_firstOffence {position p : Nat} {byte : UInt8}
    (h : firstOffence position bytes = some (p, byte)) :
    ∃ i, p = position + i ∧ bytes[i]? = some byte ∧ Offends p byte ∧
      ∀ j < i, ∀ other, bytes[j]? = some other → ¬ Offends (position + j) other := by
  induction bytes generalizing position with
  | nil => cases h
  | cons first bytes ih =>
    rw [firstOffence] at h
    by_cases hfirst : isAdmissible position first = true
    · rw [if_pos hfirst] at h
      obtain ⟨i, hp, hb, hoffends, hbefore⟩ := ih h
      refine ⟨i + 1, by omega, hb, hoffends, fun j hj other ho => ?_⟩
      cases j with
      | zero =>
        cases ho
        exact isAdmissible_iff.mp hfirst
      | succ j =>
        rw [← Nat.succ_add_eq_add_succ]
        exact hbefore j (Nat.lt_of_succ_lt_succ hj) other ho
    · rw [if_neg hfirst] at h
      cases h
      exact ⟨0, rfl, rfl, offends_of_inadmissible hfirst,
        fun j hj => absurd hj (Nat.not_lt_zero j)⟩

/-- The loader answers as it has to. -/
theorem answer_load (source : SourceText.SourceText) : Answer source.cells source.load := by
  unfold SourceText.load
  dsimp only
  cases hoffence : firstOffence 0 (source.cells.take wordSize) with
  | some offence =>
    obtain ⟨p, byte⟩ := offence
    obtain ⟨i, hp, hb, hoffends, hbefore⟩ := of_firstOffence hoffence
    rw [Nat.zero_add] at hp
    rw [hp] at hoffends ⊢
    have hin : i < wordSize := by
      have hlt := (List.getElem?_eq_some_iff.mp hb).1
      rw [List.length_take] at hlt
      omega
    rw [List.getElem?_take_of_lt hin] at hb
    refine .invalidCharacter hin hb hoffends fun j hj other ho => ?_
    rw [← Nat.zero_add j]
    exact hbefore j hj other (by rw [List.getElem?_take_of_lt (Nat.lt_trans hj hin)]; exact ho)
  | none =>
    have hsound : Inoffensive wordSize source.cells := by
      intro i hi byte hb
      rw [← List.getElem?_take_of_lt hi] at hb
      have hadmissible := admissible_of_firstOffence hoffence hb
      rw [Nat.zero_add] at hadmissible
      exact isAdmissible_iff.mp hadmissible
    dsimp only
    split
    next hlong => exact .tooLong hsound hlong
    next hfits =>
      have hfits := Nat.le_of_not_lt hfits
      split
      next hshort => exact .tooShort hsound hshort
      next hwide =>
        have hwide := Nat.le_of_not_lt hwide
        exact .loaded ⟨hwide, hfits, hsound.all hfits⟩ (holds_ofCells hwide hfits)

/-- What a text that loads is, and what its image holds. -/
theorem holds_of_load {source : SourceText.SourceText} {image : Image}
    (loads : source.load = .ok image) : Loadable source.cells ∧ Holds source.cells image := by
  have hanswer := answer_load source
  rw [loads] at hanswer
  cases hanswer with
  | loaded loadable holds => exact ⟨loadable, holds⟩

/-- A text of the language loads. -/
theorem exists_load {source : SourceText.SourceText} (h : Loadable source.cells) :
    ∃ image, source.load = .ok image :=
  ⟨_, (answer_load source).unique (.loaded h (holds_ofCells h.wide h.fits))⟩

end Loading

section OnePass

/-- Go over the bytes of a text once, with the cells filled so far. The number of all
cells is asked for only where memory ends. -/
def scan (total : Nat) : List UInt8 → Array Word → Except LoadError (Array Word)
  | [], cells => .ok cells
  | byte :: rest, cells =>
    if isBlank byte then scan total rest cells
    else if wordSize ≤ cells.size then .error (.tooLong total)
    else if isAdmissible cells.size byte then scan total rest (cells.push byte.toNat)
    else .error (.invalidCharacter cells.size byte)

/-- Load a text in one pass. -/
def loadInOnePass (source : SourceText.SourceText) : Except LoadError Image :=
  match scan source.cells.length source.bytes #[] with
  | .error error => .error error
  | .ok cells =>
    if cells.size < 2 then .error (.tooShort cells.size)
    else .ok (.ofCells (fill (wordSize - cells.size) cells))

/-- What a pass comes to: an error that is the answer, or the cells of an inoffensive
text that memory has room for. -/
def Passed (bytes : List UInt8) : Except LoadError (Array Word) → Prop
  | .error error => Answer bytes (.error error)
  | .ok cells => cells = (bytes.map UInt8.toNat).toArray ∧ bytes.length ≤ wordSize ∧
    Inoffensive bytes.length bytes

/-- A pass that has filled cells with inoffensive bytes goes on so. -/
theorem passed_scan (rest : List UInt8) {bytes seen : List UInt8}
    (split : bytes = seen ++ rest.filter fun byte => !isBlank byte)
    (fits : seen.length ≤ wordSize) (sound : Inoffensive seen.length bytes) :
    Passed bytes (scan bytes.length rest (seen.map UInt8.toNat).toArray) := by
  induction rest generalizing seen with
  | nil =>
    rw [List.filter_nil, List.append_nil] at split
    rw [split] at sound ⊢
    exact ⟨rfl, fits, sound⟩
  | cons byte rest ih =>
    have hsize : (seen.map UInt8.toNat).toArray.size = seen.length := by
      rw [List.size_toArray, List.length_map]
    rw [scan, hsize]
    cases hblank : isBlank byte with
    | true =>
      rw [if_pos rfl]
      refine ih ?_ fits sound
      rw [split, List.filter_cons_of_neg (by rw [hblank]; decide)]
    | false =>
      rw [List.filter_cons_of_pos (by rw [hblank]; rfl)] at split
      have hb : bytes[seen.length]? = some byte := by
        rw [split, List.getElem?_append_right (Nat.le_refl _), Nat.sub_self]
        rfl
      rw [if_neg Bool.false_ne_true]
      by_cases hfull : wordSize ≤ seen.length
      · rw [if_pos hfull]
        have hlong := (List.getElem?_eq_some_iff.mp hb).1
        exact .tooLong (fun i hi => sound i (Nat.lt_of_lt_of_le hi hfull))
          (Nat.lt_of_le_of_lt hfull hlong)
      · rw [if_neg hfull]
        have hin := Nat.lt_of_not_le hfull
        by_cases hadmissible : isAdmissible seen.length byte = true
        · rw [if_pos hadmissible, List.push_toArray, ← List.map_singleton, ← List.map_append]
          refine ih ?_ ?_ ?_
          · rw [split, List.append_assoc, List.singleton_append]
          · rw [List.length_append]
            exact hin
          · intro i hi other ho
            rw [List.length_append, List.length_singleton, Nat.lt_succ_iff] at hi
            rcases Nat.lt_or_eq_of_le hi with hlt | heq
            · exact sound i hlt other ho
            · rw [heq] at ho ⊢
              cases hb.symm.trans ho
              exact isAdmissible_iff.mp hadmissible
        · rw [if_neg hadmissible]
          exact .invalidCharacter hin hb (offends_of_inadmissible hadmissible) sound

/-- The loader with one pass answers as it has to. -/
theorem answer_loadInOnePass (source : SourceText.SourceText) :
    Answer source.cells (loadInOnePass source) := by
  have hpassed := @passed_scan source.bytes source.cells [] rfl (Nat.zero_le _) nofun
  unfold loadInOnePass
  cases hscan : scan source.cells.length source.bytes #[] with
  | error error =>
    rw [List.map_nil, hscan] at hpassed
    exact hpassed
  | ok cells =>
    rw [List.map_nil, hscan] at hpassed
    obtain ⟨hcells, hfits, hsound⟩ := hpassed
    have hsize : cells.size = source.cells.length := by
      rw [hcells, List.size_toArray, List.length_map]
    dsimp only
    rw [hsize, hcells]
    have hall : ∀ i byte, source.cells[i]? = some byte → ¬ Offends i byte := fun i byte hb =>
      hsound i (List.getElem?_eq_some_iff.mp hb).1 byte hb
    split
    next hshort => exact .tooShort (fun i _ => hall i) hshort
    next hwide =>
      have hwide := Nat.le_of_not_lt hwide
      exact .loaded ⟨hwide, hfits, hall⟩ (holds_ofCells hwide hfits)

end OnePass

/-- The loader accepts exactly its language. Only the bytes that are no blanks count. A
text loads if it has two of them at least and no more than memory has cells, and if each
that is printable decodes in its cell; the image then has these bytes and the combine of
the two cells before it in every other cell. Any other text is refused: with the first
offence inside memory, if there is one, else with its length. To go over the text once
comes to the same. -/
theorem load_accepts_language (source : SourceText.SourceText) :
    source.cells = source.bytes.filter (fun byte => decide (byte ∉ [32, 9, 10, 12, 13])) ∧
      (∀ answer, source.load = answer ↔ Answer source.cells answer) ∧
      ((∃ image, source.load = .ok image) ↔ Loadable source.cells) ∧
      loadInOnePass source = source.load ∧
      ∀ other : SourceText.SourceText, other.cells = source.cells → other.load = source.load := by
  have hanswer := answer_load source
  refine ⟨?_, ?_, ?_, (answer_loadInOnePass source).unique hanswer, fun _ h => load_congr h⟩
  · unfold SourceText.cells isBlank
    congr 1
    funext byte
    rw [Bool.eq_iff_iff]
    simp [and_assoc]
  · intro answer
    constructor
    · intro h
      rw [← h]
      exact hanswer
    · exact hanswer.unique
  · constructor
    · rintro ⟨image, hload⟩
      rw [hload] at hanswer
      cases hanswer with
      | loaded loadable _ => exact loadable
    · intro h
      exact ⟨_, hanswer.unique (.loaded h (holds_ofCells h.wide h.fits))⟩

end TernarySynth.Proofs.TextLanguage
