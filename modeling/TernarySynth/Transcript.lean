import TernarySynth.Cycle

/-!
# Transcripts

The simplest channel: it keeps every byte that is written and never fails a
write. Its input is a list of words, after which the input has ended, or there
is none at all, and then every read fails.
-/

namespace TernarySynth.Transcript

open TritWord TernarySynth.Cycle

/-- A channel that keeps its output and takes its input from a list. -/
structure Transcript where
  /-- Bytes written so far, oldest first. -/
  output : List UInt8
  /-- Words that are still to be read; none where there is no input. -/
  input : Option (List Word)
  deriving DecidableEq

namespace Transcript

/-- A transcript that goes on from an output and has no input. -/
def withoutInput (output : List UInt8) : Transcript := ⟨output, none⟩

/-- Keep one more byte. -/
def write (channel : Transcript) (byte : UInt8) : Except Fault Unit × Transcript :=
  (.ok (), ⟨channel.output ++ [byte], channel.input⟩)

/-- Take the next word. -/
def read (channel : Transcript) : Except Fault Word × Transcript :=
  match channel with
  | ⟨output, none⟩ => (.error .inputUnavailable, ⟨output, none⟩)
  | ⟨output, some []⟩ => (.ok eofWord, ⟨output, some []⟩)
  | ⟨output, some (word :: rest)⟩ => (.ok word, ⟨output, some rest⟩)

instance : Channel Transcript where
  output := write
  input := read

end Transcript

end TernarySynth.Transcript
