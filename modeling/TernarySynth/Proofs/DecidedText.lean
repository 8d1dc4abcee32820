import Mathlib.Data.List.Nodup
import TernarySynth.Proofs.CodeValues
import TernarySynth.SourceText

/-!
# The text of decided cells

Cells that a search has decided are written out as a text that ends at the
highest of them. Such a text is printable throughout and each of its bytes names
an instruction at its cell, so it loads, and the image holds every decided value
at its address. Printing the text and reading the print gives the same image.
-/

namespace TernarySynth.Proofs.DecidedText

open TritWord CellCode MemoryImage SourceText LossyText CodeValues

/-- Decisions that a text can be made of: their values name instructions at their
addresses, they fit into memory, and one of them lies behind the first cell. -/
structure Writable (decisions : List (Word × Word)) : Prop where
  /-- Each value names an instruction. -/
  encoded : ∀ a v, (a, v) ∈ decisions → ∃ instruction, v = encode a instruction
  /-- Each cell lies in memory. -/
  inMemory : ∀ a v, (a, v) ∈ decisions → a < wordSize
  /-- There are two cells at least. -/
  wide : ∃ a v, (a, v) ∈ decisions ∧ 1 ≤ a

variable {decisions : List (Word × Word)}

section Span

/-- The span grows with the decisions that have been seen. -/
theorem le_foldl_span (entries : List (Word × Word)) (bound : Nat) :
    bound ≤ entries.foldl (fun bound entry => max bound (entry.1 + 1)) bound := by
  induction entries generalizing bound with
  | nil => exact Nat.le_refl bound
  | cons entry entries ih => exact Nat.le_trans (Nat.le_max_left _ _) (ih _)

/-- Every decided cell lies in the span. -/
theorem lt_span {a v : Word} (h : (a, v) ∈ decisions) : a < SourceText.span decisions := by
  have hmem : ∀ (entries : List (Word × Word)) (bound : Nat), (a, v) ∈ entries →
      a < entries.foldl (fun bound entry => max bound (entry.1 + 1)) bound := by
    intro entries
    induction entries with
    | nil => nofun
    | cons entry entries ih =>
      intro bound hm
      rcases List.mem_cons.mp hm with rfl | hm
      · have hle := le_foldl_span entries (max bound (a + 1))
        rw [List.foldl_cons]
        exact Nat.le_trans (Nat.le_max_right bound (a + 1)) hle
      · exact ih _ hm
  exact hmem decisions 0 h

/-- The span ends where the highest decided cell does. -/
theorem span_le {limit : Nat} (h : ∀ a v, (a, v) ∈ decisions → a < limit) :
    SourceText.span decisions ≤ limit := by
  have hbound : ∀ (entries : List (Word × Word)) (bound : Nat), bound ≤ limit →
      (∀ a v, (a, v) ∈ entries → a < limit) →
      entries.foldl (fun bound entry => max bound (entry.1 + 1)) bound ≤ limit := by
    intro entries
    induction entries with
    | nil => exact fun bound hb _ => hb
    | cons entry entries ih =>
      intro bound hb hall
      have hentry := hall entry.1 entry.2 List.mem_cons_self
      refine ih _ ?_ fun a v hm => hall a v (List.mem_cons_of_mem _ hm)
      exact Nat.max_le.mpr ⟨hb, hentry⟩
  exact hbound decisions 0 (Nat.zero_le limit) h

end Span

section Entries

/-- Where each cell has one entry, this is its decided value. -/
theorem decided_of_mem (single : (decisions.map Prod.fst).Nodup) {a v : Word}
    (hm : (a, v) ∈ decisions) : SourceText.decided decisions a = some v := by
  cases hf : decisions.find? fun entry => entry.1 == a with
  | none =>
    have hno := List.find?_eq_none.mp hf (a, v) hm
    exact absurd (beq_self_eq_true a) hno
  | some entry =>
    have hbeq := List.find?_some hf
    have hkey : entry.1 = a := beq_iff_eq.mp hbeq
    have hentry := List.mem_of_find?_eq_some hf
    have heq : entry = (a, v) := List.inj_on_of_nodup_map single hentry hm hkey
    rw [SourceText.decided, hf, heq]
    rfl

/-- A cell without an entry is undecided. -/
theorem decided_eq_none {a : Word} (h : a ∉ decisions.map Prod.fst) :
    SourceText.decided decisions a = none := by
  have hf : decisions.find? (fun entry => entry.1 == a) = none := by
    rw [List.find?_eq_none]
    intro entry hm hbeq
    exact h (List.mem_map.mpr ⟨entry, hm, beq_iff_eq.mp hbeq⟩)
  rw [SourceText.decided, hf]
  rfl

end Entries

/-- Each byte of the text names an instruction at its cell: the one that was
decided, or the no-op. -/
theorem byteAt_encoded (h : Writable decisions) (address : Word) :
    ∃ instruction, (SourceText.byteAt decisions address).toNat = encode address instruction ∧
      (SourceText.byteAt decisions address).toNat =
        (SourceText.decided decisions address).getD (encode address .noOp) := by
  have hvalue : ∃ instruction,
      (SourceText.decided decisions address).getD (encode address .noOp) =
        encode address instruction := by
    cases hd : SourceText.decided decisions address with
    | none => exact ⟨.noOp, rfl⟩
    | some value =>
      unfold SourceText.decided at hd
      rw [Option.map_eq_some_iff] at hd
      obtain ⟨⟨a, v⟩, hf, rfl⟩ := hd
      have hb := List.find?_some hf
      obtain rfl : a = address := beq_iff_eq.mp hb
      exact h.encoded a v (List.mem_of_find?_eq_some hf)
  obtain ⟨instruction, hi⟩ := hvalue
  have hp := isPrintable_iff.mp (encode_printable address instruction)
  have hbyte : (SourceText.byteAt decisions address).toNat = encode address instruction := by
    rw [SourceText.byteAt, hi, UInt8.toNat_ofNat']
    unfold Word at *
    omega
  exact ⟨instruction, hbyte, by rw [hbyte, hi]⟩

/-- A printable byte is not blank. -/
theorem isBlank_of_printable {byte : UInt8} (h : isPrintable byte.toNat = true) :
    isBlank byte = false := by
  have hr := isPrintable_iff.mp h
  have hne : ∀ blank : UInt8, blank.toNat < 33 → (byte == blank) = false := by
    intro blank hb
    rw [beq_eq_false_iff_ne]
    rintro rfl
    unfold Word at *
    omega
  unfold isBlank
  rw [hne 32 (by decide), hne 9 (by decide), hne 10 (by decide), hne 12 (by decide),
    hne 13 (by decide)]
  rfl

/-- The bytes of the text. -/
theorem bytes_ofDecisions (decisions : List (Word × Word)) :
    (SourceText.ofDecisions decisions).bytes =
      (List.range (SourceText.span decisions)).map (SourceText.byteAt decisions) := rfl

/-- Every byte of the text is printable. -/
theorem printable_of_mem (h : Writable decisions) {byte : UInt8}
    (hm : byte ∈ (SourceText.ofDecisions decisions).bytes) : isPrintable byte.toNat = true := by
  rw [bytes_ofDecisions, List.mem_map] at hm
  obtain ⟨address, -, rfl⟩ := hm
  obtain ⟨instruction, hb, -⟩ := byteAt_encoded h address
  rw [hb]
  exact encode_printable address instruction

/-- None of its bytes is skipped. -/
theorem cells_ofDecisions (h : Writable decisions) :
    (SourceText.ofDecisions decisions).cells = (SourceText.ofDecisions decisions).bytes := by
  refine List.filter_eq_self.mpr fun byte hm => ?_
  rw [isBlank_of_printable (printable_of_mem h hm)]
  rfl

/-- Where every byte may stand in its cell there is no offence. -/
theorem firstOffence_eq_none {position : Nat} {bytes : List UInt8}
    (h : ∀ i byte, bytes[i]? = some byte → isAdmissible (position + i) byte = true) :
    firstOffence position bytes = none := by
  induction bytes generalizing position with
  | nil => rfl
  | cons byte bytes ih =>
    have hbyte := h 0 byte rfl
    rw [Nat.add_zero] at hbyte
    rw [firstOffence, if_pos hbyte]
    refine ih fun i other hi => ?_
    rw [Nat.add_assoc, Nat.add_comm 1 i]
    exact h (i + 1) other hi

/-- Appending filler keeps the cells there are. -/
theorem fill_getElem? (n : Nat) (cells : Array Word) :
    (fill n cells).size = cells.size + n ∧
      ∀ i < cells.size, (fill n cells)[i]? = cells[i]? := by
  induction n generalizing cells with
  | zero => exact ⟨rfl, fun _ _ => rfl⟩
  | succ n ih =>
    obtain ⟨hs, hi⟩ := ih (cells.push (nextFiller cells))
    rw [Array.size_push] at hs hi
    refine ⟨by rw [fill, hs]; omega, fun i hlt => ?_⟩
    rw [fill, hi i (by omega), Array.getElem?_push_lt hlt, Array.getElem?_eq_getElem hlt]

/-- A full image has the cells that it is made of. -/
theorem read_ofCells {cells : Array Word} (h : cells.size = wordSize) (a : Word) :
    (Image.ofCells cells).read a = cells[a]? := by
  unfold Image.read Image.ofCells
  dsimp only
  rw [h, Nat.sub_self, Array.replicate_zero, Array.append_empty, ← h, Array.take_eq_extract,
    Array.extract_size]

/-- The text ends where the decided cells do. -/
theorem length_ofDecisions (decisions : List (Word × Word)) :
    (SourceText.ofDecisions decisions).bytes.length = SourceText.span decisions := by
  rw [bytes_ofDecisions, List.length_map, List.length_range]

/-- Each cell of the span has its byte. -/
theorem getElem?_ofDecisions {a : Word} (ha : a < SourceText.span decisions) :
    (SourceText.ofDecisions decisions).bytes[a]? = some (SourceText.byteAt decisions a) := by
  rw [bytes_ofDecisions, List.getElem?_map, List.getElem?_range ha, Option.map_some]

/-- Every byte of the text may stand in its cell. -/
theorem firstOffence_ofDecisions (h : Writable decisions) :
    firstOffence 0 (SourceText.ofDecisions decisions).bytes = none := by
  refine firstOffence_eq_none fun a byte hb => ?_
  have ha : a < SourceText.span decisions := by
    rw [← length_ofDecisions]
    exact (List.getElem?_eq_some_iff.mp hb).1
  rw [getElem?_ofDecisions ha] at hb
  obtain ⟨instruction, hi, -⟩ := byteAt_encoded h a
  rw [← Option.some.inj hb, isAdmissible, Nat.zero_add, hi, decode_encode]
  exact Bool.or_true _

/-- The text has two cells at least, and fits into memory. -/
theorem span_bounds (h : Writable decisions) :
    2 ≤ SourceText.span decisions ∧ SourceText.span decisions ≤ wordSize := by
  obtain ⟨a, v, hm, ha⟩ := h.wide
  have hlt := lt_span hm
  exact ⟨Nat.lt_of_le_of_lt ha hlt, span_le h.inMemory⟩

/-- The text of writable decisions loads. Every cell of its span holds the
decided value, or the no-op where nothing was decided. -/
theorem load_ofDecisions (h : Writable decisions) :
    ∃ image, (SourceText.ofDecisions decisions).load = .ok image ∧
      ∀ a < SourceText.span decisions, image.read a =
        some ((SourceText.decided decisions a).getD (encode a .noOp)) := by
  obtain ⟨hge, hle⟩ := span_bounds h
  have hlength := length_ofDecisions decisions
  let cells := ((SourceText.ofDecisions decisions).bytes.map UInt8.toNat).toArray
  let filled := fill (wordSize - SourceText.span decisions) cells
  have hload : (SourceText.ofDecisions decisions).load = .ok (.ofCells filled) := by
    unfold SourceText.load
    rw [cells_ofDecisions h]
    dsimp only
    rw [List.take_of_length_le (by rw [hlength]; exact hle), firstOffence_ofDecisions h, hlength]
    dsimp only
    rw [if_neg (Nat.not_lt.mpr hle), if_neg (Nat.not_lt.mpr hge)]
  have hsize : cells.size = SourceText.span decisions := by
    rw [List.size_toArray, List.length_map, hlength]
  obtain ⟨hfilled, hget⟩ := fill_getElem? (wordSize - SourceText.span decisions) cells
  rw [hsize] at hfilled hget
  refine ⟨_, hload, fun a ha => ?_⟩
  obtain ⟨instruction, -, hvalue⟩ := byteAt_encoded h a
  rw [read_ofCells (by rw [hfilled]; exact Nat.add_sub_of_le hle), hget a ha,
    List.getElem?_toArray, List.getElem?_map, getElem?_ofDecisions ha, Option.map_some, hvalue]

/-- Texts with the same cells load the same. -/
theorem load_congr {source source' : SourceText.SourceText} (h : source.cells = source'.cells) :
    source.load = source'.load := by
  unfold SourceText.load
  rw [h]

section Printing

/-- The bytes of a byte array, one after the other. -/
theorem toList_loop (bytes : ByteArray) (i : Nat) (read : List UInt8) :
    ByteArray.toList.loop bytes i read = read.reverse ++ bytes.data.toList.drop i := by
  induction hn : bytes.size - i generalizing i read with
  | zero =>
    have hi : ¬ i < bytes.size := by omega
    rw [ByteArray.toList.loop, if_neg hi, List.drop_of_length_le, List.append_nil]
    exact Nat.le_of_not_lt hi
  | succ n ih =>
    have hi : i < bytes.size := by omega
    rw [ByteArray.toList.loop, if_pos hi, ih (i + 1) _ (by omega), List.reverse_cons,
      List.append_assoc, List.drop_eq_getElem_cons (show i < bytes.data.toList.length from hi)]
    have hget : bytes.get! i = bytes.data.toList[i] := getElem!_pos bytes.data i hi
    rw [hget]
    rfl

/-- The bytes of a byte array are those of its array. -/
theorem toList_eq (bytes : ByteArray) : bytes.toList = bytes.data.toList :=
  toList_loop bytes 0 []

/-- The bytes of two strings behind each other. -/
theorem toUTF8_append (text text' : String) :
    (text ++ text').toUTF8.toList = text.toUTF8.toList ++ text'.toUTF8.toList := by
  simp only [toList_eq, String.toUTF8_eq_toByteArray, String.toByteArray_append,
    ByteArray.toList_data_append]

/-- An ASCII character is one byte. -/
theorem utf8EncodeChar_ofNat {byte : UInt8} (h : byte.toNat < 0x80) :
    String.utf8EncodeChar (Char.ofNat byte.toNat) = [byte] := by
  have hvalue : (Char.ofNat byte.toNat).val.toNat = byte.toNat := by
    have hvalid : byte.toNat.isValidChar := Or.inl (by omega)
    rw [Char.ofNat, dif_pos hvalid]
    rfl
  have hsize : (Char.ofNat byte.toNat).utf8Size = 1 := by
    rw [Char.utf8Size_eq_one_iff, UInt32.le_iff_toNat_le, hvalue]
    exact Nat.le_of_lt_succ h
  rw [String.utf8EncodeChar_eq_singleton hsize]
  congr 1
  rw [← UInt8.toNat_inj, UInt32.toNat_toUInt8, hvalue]
  exact Nat.mod_eq_of_lt byte.toNat_lt

/-- An ASCII character adds its byte to a string. -/
theorem toUTF8_push (text : String) {byte : UInt8} (h : byte.toNat < 0x80) :
    (text.push (Char.ofNat byte.toNat)).toUTF8.toList = text.toUTF8.toList ++ [byte] := by
  simp only [toList_eq, String.toUTF8_eq_toByteArray, String.toByteArray_push,
    ByteArray.toList_data_append, List.utf8Encode_singleton, List.toList_data_toByteArray]
  rw [utf8EncodeChar_ofNat h]

/-- Reading printable bytes as text keeps them. -/
theorem foldl_next_printable {bytes : List UInt8}
    (h : ∀ byte ∈ bytes, isPrintable byte.toNat = true) (text : String) :
    ∃ text', bytes.foldl Reading.next ⟨text, .none⟩ = ⟨text', .none⟩ ∧
      text'.toUTF8.toList = text.toUTF8.toList ++ bytes := by
  induction bytes generalizing text with
  | nil => exact ⟨text, rfl, (List.append_nil _).symm⟩
  | cons byte bytes ih =>
    have hlt : byte.toNat < 0x80 := by
      have hr := isPrintable_iff.mp (h byte List.mem_cons_self)
      unfold Word at hr
      omega
    have hnext : Reading.next ⟨text, .none⟩ byte =
        ⟨text.push (Char.ofNat byte.toNat), .none⟩ := by
      simp only [Reading.next, Reading.first, if_pos hlt]
    obtain ⟨text', hf, ht⟩ := ih (fun other hm => h other (List.mem_cons_of_mem _ hm))
      (text.push (Char.ofNat byte.toNat))
    refine ⟨text', ?_, ?_⟩
    · rw [List.foldl_cons, hnext, hf]
    · rw [ht, toUTF8_push text hlt, List.append_assoc]
      rfl

/-- The print of a printable text has the bytes of the text. -/
theorem toUTF8_display {source : SourceText.SourceText}
    (h : ∀ byte ∈ source.bytes, isPrintable byte.toNat = true) :
    source.display.toUTF8.toList = source.bytes := by
  obtain ⟨text, hf, ht⟩ := foldl_next_printable h ""
  have hempty : "".toUTF8.toList = [] := by
    rw [toList_eq]
    rfl
  rw [SourceText.display, ofBytes, hf]
  rw [hempty, List.nil_append] at ht
  exact ht

/-- The text of writable decisions, printed with a newline at its end, loads the
same. -/
theorem load_printed (h : Writable decisions) :
    SourceText.load ⟨((SourceText.ofDecisions decisions).display ++ "\n").toUTF8.toList⟩ =
      (SourceText.ofDecisions decisions).load := by
  refine load_congr ?_
  rw [toUTF8_append, toUTF8_display fun byte hm => printable_of_mem h hm]
  have hnewline : "\n".toUTF8.toList = [10] := by
    rw [toList_eq]
    rfl
  rw [hnewline]
  simp only [SourceText.cells, List.filter_append]
  exact List.append_nil _

end Printing

end TernarySynth.Proofs.DecidedText
