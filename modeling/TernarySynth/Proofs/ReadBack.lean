import TernarySynth.Proofs.TextLanguage

/-!
# Texts and decisions, back and forth

A map of decided cells is written out as a text with one byte for each cell up to the
highest. Reading the text gives the map back: every decided cell holds its value, the
gaps hold no-ops and the cells behind the text hold filler. Conversely the bytes of a
text, each as the decision of its cell, are written out as they stand.
-/

namespace TernarySynth.Proofs.ReadBack

open TritWord CellCode MemoryImage SourceText
open CodeValues DecidedText LoadedText TextLanguage

/-- The entries of a map, in any order, that decides instructions of cells up to `top`. -/
structure DecidedUpTo (decisions : List (Word × Word)) (top : Word) : Prop where
  /-- Each cell has one entry. -/
  single : (decisions.map Prod.fst).Nodup
  /-- Its value names an instruction there. -/
  encoded : ∀ a v, (a, v) ∈ decisions → ∃ instruction, v = encode a instruction
  /-- The highest cell is decided. -/
  highest : top ∈ decisions.map Prod.fst
  /-- No other cell is higher. -/
  le_top : ∀ a ∈ decisions.map Prod.fst, a ≤ top
  /-- It is not the first cell. -/
  wide : 1 ≤ top
  /-- It lies in memory. -/
  inMemory : top < wordSize

/-- A text reads back as the decisions that it was made of. -/
structure ReadsBack (decisions : List (Word × Word)) (top : Word) (source : SourceText.SourceText) :
    Prop where
  /-- Each cell up to the highest has a byte. -/
  length_eq : source.bytes.length = top + 1
  /-- Every byte is printable. -/
  printable : ∀ byte ∈ source.bytes, 33 ≤ byte.toNat ∧ byte.toNat ≤ 126
  /-- None is skipped. -/
  unblank : ∀ byte ∈ source.bytes, byte ∉ [32, 9, 10, 12, 13]
  /-- The text loads, into an image with all decided values, with no-ops in the gaps and
  with filler behind the text. -/
  loads : ∃ image, source.load = .ok image ∧
    (∀ a v, (a, v) ∈ decisions → image.read a = some v) ∧
    (∀ a ≤ top, a ∉ decisions.map Prod.fst → image.read a = some (encode a .noOp)) ∧
    ∀ i, top < i → i < wordSize → ∃ last before, image.read (i - 1) = some last ∧
      image.read (i - 2) = some before ∧ image.read i = some (combine last before)

section Writing

variable {decisions : List (Word × Word)} {top : Word}

/-- Such decisions can be written out. -/
theorem DecidedUpTo.writable (h : DecidedUpTo decisions top) : Writable decisions := by
  obtain ⟨entry, hm, htop⟩ := List.mem_map.mp h.highest
  refine ⟨h.encoded, fun a v ha => ?_, entry.1, entry.2, hm, ?_⟩
  · have hle := h.le_top a (List.mem_map.mpr ⟨(a, v), ha, rfl⟩)
    exact Nat.lt_of_le_of_lt hle h.inMemory
  · rw [htop]
    exact h.wide

/-- The text ends at the highest cell. -/
theorem DecidedUpTo.span_eq (h : DecidedUpTo decisions top) :
    SourceText.span decisions = top + 1 := by
  obtain ⟨entry, hm, htop⟩ := List.mem_map.mp h.highest
  have hlt : entry.1 < SourceText.span decisions := lt_span hm
  have hle : SourceText.span decisions ≤ top + 1 := span_le fun a v ha =>
    Nat.lt_succ_of_le (h.le_top a (List.mem_map.mpr ⟨(a, v), ha, rfl⟩))
  rw [htop] at hlt
  exact Nat.le_antisymm hle hlt

/-- The text of decisions reads back as they are. -/
theorem DecidedUpTo.readsBack (h : DecidedUpTo decisions top) :
    ReadsBack decisions top (.ofDecisions decisions) := by
  have hw := h.writable
  have hspan := h.span_eq
  have hlength : (SourceText.ofDecisions decisions).bytes.length = top + 1 :=
    (length_ofDecisions decisions).trans hspan
  have hprintable : ∀ byte ∈ (SourceText.ofDecisions decisions).bytes,
      33 ≤ byte.toNat ∧ byte.toNat ≤ 126 :=
    fun byte hm => isPrintable_iff.mp (printable_of_mem hw hm)
  obtain ⟨image, hload, hread⟩ := load_ofDecisions hw
  have hholds := (holds_of_load hload).2
  rw [cells_ofDecisions hw] at hholds
  constructor
  case length_eq => exact hlength
  case printable => exact hprintable
  case unblank =>
    intro byte hm hblank
    have hrange := hprintable byte hm
    simp only [List.mem_cons, List.not_mem_nil, or_false] at hblank
    rcases hblank with rfl | rfl | rfl | rfl | rfl <;> exact absurd hrange (by decide)
  case loads =>
    refine ⟨image, hload, fun a v hm => ?_, fun a ha hno => ?_, fun i hi hin => ?_⟩
    · rw [hread a (lt_span hm), decided_of_mem h.single hm, Option.getD_some]
    · rw [hread a (by rw [hspan]; exact Nat.lt_succ_of_le ha), decided_eq_none hno,
        Option.getD_none]
    · exact hholds.filler i (by rw [hlength]; exact hi) hin

end Writing

section Numbering

/-- The bytes of a text as decisions of the cells that they stand in. -/
def numbered (bytes : List UInt8) : List (Word × Word) :=
  bytes.zipIdx.map fun entry => (entry.2, entry.1.toNat)

/-- The decided cells are those of the text. -/
theorem keys_numbered (bytes : List UInt8) :
    (numbered bytes).map Prod.fst = List.range bytes.length := by
  rw [numbered, List.map_map, List.range_eq_range', ← List.zipIdx_map_snd 0 bytes]
  rfl

/-- Each cell of the text is decided by its byte. -/
theorem mem_numbered {bytes : List UInt8} {a v : Word} :
    (a, v) ∈ numbered bytes ↔ ∃ byte, bytes[a]? = some byte ∧ v = byte.toNat := by
  simp only [numbered, List.mem_map, Prod.exists, List.mem_zipIdx_iff_getElem?, Prod.mk.injEq]
  constructor
  · rintro ⟨byte, i, hb, rfl, rfl⟩
    exact ⟨byte, hb, rfl⟩
  · rintro ⟨byte, hb, rfl⟩
    exact ⟨byte, a, hb, rfl, rfl⟩

/-- Numbered bytes are written out as they stand. -/
theorem bytes_numbered (bytes : List UInt8) :
    (SourceText.ofDecisions (numbered bytes)).bytes = bytes := by
  have hsingle : ((numbered bytes).map Prod.fst).Nodup := by
    rw [keys_numbered]
    exact List.nodup_range
  have hspan : SourceText.span (numbered bytes) = bytes.length := by
    refine Nat.le_antisymm (span_le fun a v hm => ?_) (Nat.le_of_not_lt fun hlt => ?_)
    · obtain ⟨byte, hb, -⟩ := mem_numbered.mp hm
      exact (List.getElem?_eq_some_iff.mp hb).1
    · have hm := mem_numbered.mpr ⟨_, List.getElem?_eq_getElem hlt, rfl⟩
      exact absurd (lt_span hm) (Nat.lt_irrefl _)
  refine List.ext_getElem? fun a => ?_
  rcases Nat.lt_or_ge a bytes.length with ha | ha
  · have hb := List.getElem?_eq_getElem ha
    have hdecided := decided_of_mem hsingle (mem_numbered.mpr ⟨_, hb, rfl⟩)
    rw [getElem?_ofDecisions (by rw [hspan]; exact ha), hb, SourceText.byteAt, hdecided,
      Option.getD_some, Nat.mod_eq_of_lt (UInt8.toNat_lt _), UInt8.ofNat_toNat]
  · rw [List.getElem?_eq_none ha, List.getElem?_eq_none]
    rw [length_ofDecisions, hspan]
    exact ha

/-- The cells of a text have no blanks among them. -/
theorem cells_of_cells (source : SourceText.SourceText) :
    SourceText.cells ⟨source.cells⟩ = source.cells := by
  unfold SourceText.cells
  rw [List.filter_filter]
  simp only [Bool.and_self]

/-- Where the bytes of a text that loads are printable, they are decisions up to its last
cell. -/
theorem decidedUpTo_numbered {source : SourceText.SourceText} {image : Image}
    (loads : source.load = .ok image)
    (printable : ∀ byte ∈ source.cells, isPrintable byte.toNat = true) :
    DecidedUpTo (numbered source.cells) (source.cells.length - 1) := by
  obtain ⟨hloadable, hholds⟩ := holds_of_load loads
  have hwide := hloadable.wide
  have hfits := hloadable.fits
  constructor
  case single =>
    rw [keys_numbered]
    exact List.nodup_range
  case encoded =>
    intro a v hm
    obtain ⟨byte, hb, rfl⟩ := mem_numbered.mp hm
    obtain ⟨instruction, hi⟩ :=
      encoded_of_load loads printable (List.getElem?_eq_some_iff.mp hb).1
    rw [hholds.text a byte hb] at hi
    exact ⟨instruction, Option.some.inj hi⟩
  case highest =>
    rw [keys_numbered, List.mem_range]
    omega
  case le_top =>
    intro a ha
    rw [keys_numbered, List.mem_range] at ha
    exact Nat.le_sub_one_of_lt ha
  case wide => exact Nat.le_sub_one_of_lt hwide
  case inMemory => exact Nat.lt_of_lt_of_le (Nat.sub_one_lt_of_lt hwide) hfits

end Numbering

/-- Decisions with instructions for cells of memory, one of them behind the first cell, are
written out as a text that reads back as they are. Conversely the cells of any text are
written out as they stand, and load the same; where the text loads and has only blanks and
printable bytes, they are such decisions. -/
theorem decisions_read_back :
    (∀ decisions top, DecidedUpTo decisions top →
      ReadsBack decisions top (.ofDecisions decisions)) ∧
    ∀ source : SourceText.SourceText,
      SourceText.ofDecisions (numbered source.cells) = ⟨source.cells⟩ ∧
      (SourceText.ofDecisions (numbered source.cells)).load = source.load ∧
      ∀ image, source.load = .ok image →
        (∀ byte ∈ source.bytes, isPrintable byte.toNat = true ∨ isBlank byte = true) →
        DecidedUpTo (numbered source.cells) (source.cells.length - 1) := by
  refine ⟨fun _ _ h => h.readsBack, fun source => ?_⟩
  have hbytes : SourceText.ofDecisions (numbered source.cells) = ⟨source.cells⟩ :=
    congrArg SourceText.mk (bytes_numbered source.cells)
  refine ⟨hbytes, ?_, fun image hload hall => decidedUpTo_numbered hload fun byte hm => ?_⟩
  · rw [hbytes]
    exact load_congr (cells_of_cells source)
  · obtain ⟨hmem, hblank⟩ := List.mem_filter.mp hm
    rcases hall byte hmem with hp | hb
    · exact hp
    · rw [hb] at hblank
      cases hblank

/-- An output at the first cell and an exit at the fourth are written with two no-ops
between them, and read back so. The same text with a blank in it decides these cells. -/
theorem decisions_read_back_of_exit :
    DecidedUpTo [(3, encode 3 .exit), (0, encode 0 .output)] 3 ∧
      (∃ image, SourceText.load ⟨[99, 67, 66, 78]⟩ = .ok image ∧
        image.read 0 = some (encode 0 .output) ∧ image.read 1 = some (encode 1 .noOp) ∧
        image.read 2 = some (encode 2 .noOp) ∧ image.read 3 = some (encode 3 .exit)) ∧
      DecidedUpTo (numbered (SourceText.cells ⟨[99, 32, 67, 66, 78]⟩)) 3 := by
  have hdecided : DecidedUpTo [(3, encode 3 .exit), (0, encode 0 .output)] 3 := by
    constructor
    case encoded =>
      intro a v hm
      simp only [List.mem_cons, Prod.mk.injEq, List.not_mem_nil, or_false] at hm
      rcases hm with ⟨rfl, rfl⟩ | ⟨rfl, rfl⟩
      · exact ⟨.exit, rfl⟩
      · exact ⟨.output, rfl⟩
    all_goals decide
  obtain ⟨image, hload, hvalues, hgaps, -⟩ := (decisions_read_back.1 _ _ hdecided).loads
  have hblank : SourceText.load ⟨[99, 32, 67, 66, 78]⟩ = .ok image := hload
  have hclean : ∀ byte ∈ ([99, 32, 67, 66, 78] : List UInt8),
      isPrintable byte.toNat = true ∨ isBlank byte = true := by
    simp [isPrintable, printableMin, printableMax, isBlank]
  have hnumbered := (decisions_read_back.2 ⟨[99, 32, 67, 66, 78]⟩).2.2 image hblank hclean
  exact ⟨hdecided, ⟨image, hload, hvalues 0 _ (by decide), hgaps 1 (by decide) (by decide),
    hgaps 2 (by decide) (by decide), hvalues 3 _ (by decide)⟩, hnumbered⟩

end TernarySynth.Proofs.ReadBack
