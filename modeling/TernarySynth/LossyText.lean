/-!
# Reading bytes as text

Bytes are read as UTF-8. Where they are not well formed, each longest beginning
of a character that cannot be completed, or a byte that can begin none, is
shown as one replacement character, and reading goes on with the next byte.
-/

namespace TernarySynth.LossyText

/-- Stands for bytes that are not well formed. -/
def replacement : Char := '\ufffd'

/-- What the bytes read so far leave open. -/
inductive Pending where
  /-- Nothing: the next byte begins a character. -/
  | none
  /-- A character of which `missing + 1` more bytes are expected, the next of
  them between `low` and `high`; `value` holds the bits seen so far. -/
  | partly (value missing low high : Nat)
  deriving DecidableEq

/-- The text read so far and what is still open. -/
structure Reading where
  /-- Completed characters. -/
  text : String
  /-- The unfinished character, if any. -/
  pending : Pending

/-- Read the first byte of a character. -/
def Reading.first (text : String) (byte : Nat) : Reading :=
  if byte < 0x80 then ⟨text.push (Char.ofNat byte), .none⟩
  else if 0xC2 ≤ byte ∧ byte ≤ 0xDF then ⟨text, .partly (byte - 0xC0) 0 0x80 0xBF⟩
  else if byte = 0xE0 then ⟨text, .partly 0 1 0xA0 0xBF⟩
  else if byte = 0xED then ⟨text, .partly 0xD 1 0x80 0x9F⟩
  else if 0xE1 ≤ byte ∧ byte ≤ 0xEF then ⟨text, .partly (byte - 0xE0) 1 0x80 0xBF⟩
  else if byte = 0xF0 then ⟨text, .partly 0 2 0x90 0xBF⟩
  else if byte = 0xF4 then ⟨text, .partly 4 2 0x80 0x8F⟩
  else if 0xF1 ≤ byte ∧ byte ≤ 0xF3 then ⟨text, .partly (byte - 0xF0) 2 0x80 0xBF⟩
  else ⟨text.push replacement, .none⟩

/-- Read one byte. -/
def Reading.next (reading : Reading) (byte : UInt8) : Reading :=
  match reading with
  | ⟨text, .none⟩ => .first text byte.toNat
  | ⟨text, .partly value missing low high⟩ =>
    if low ≤ byte.toNat ∧ byte.toNat ≤ high then
      let value := value * 64 + (byte.toNat - 0x80)
      match missing with
      | 0 => ⟨text.push (Char.ofNat value), .none⟩
      | missing + 1 => ⟨text, .partly value missing 0x80 0xBF⟩
    else .first (text.push replacement) byte.toNat

/-- The whole text once the bytes have ended. -/
def Reading.finish : Reading → String
  | ⟨text, .none⟩ => text
  | ⟨text, .partly ..⟩ => text.push replacement

/-- The text of a sequence of bytes. -/
def ofBytes (bytes : List UInt8) : String :=
  (bytes.foldl Reading.next ⟨"", .none⟩).finish

end TernarySynth.LossyText
