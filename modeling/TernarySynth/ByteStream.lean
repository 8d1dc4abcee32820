import TernarySynth.Cycle

/-!
# Byte streams

The streams that a running program reads and writes. A reader is the list of
answers its next reads give. A sink takes one byte at a time and can be
flushed; two kinds are provided. A `ScriptedSink` answers every write and
flush as it was told in advance, a `LineBuffer` collects bytes and passes them
on at the end of a line, when it is full, or on a flush. `StreamChannel` joins a
reader and a sink into a channel of the machine.
-/

namespace TernarySynth.ByteStream

open TritWord StreamError TernarySynth.Cycle

/-- The answer of a reader to one read. -/
inductive ReadEvent where
  /-- One byte arrived. -/
  | byte (value : UInt8)
  /-- Nothing arrived: the end of the input, at least for now. -/
  | ended
  /-- The read was interrupted and has to be repeated. -/
  | interrupted
  /-- The read failed. -/
  | refused (error : IoError)
  deriving DecidableEq

/-- Read one byte, repeating interrupted reads; none at the end of the input.
A stream that ends inside the read counts as ended. -/
def readByte : List ReadEvent → Except IoError (Option UInt8) × List ReadEvent
  | [] => (.ok none, [])
  | .byte value :: rest => (.ok (some value), rest)
  | .ended :: rest => (.ok none, rest)
  | .interrupted :: rest => readByte rest
  | .refused .unexpectedEof :: rest => (.ok none, rest)
  | .refused error :: rest => (.error error, rest)

/-- The bytes that arrive before anything else happens. -/
def arrivingBytes : List ReadEvent → List UInt8
  | .byte value :: rest => value :: arrivingBytes rest
  | _ => []

/-- Something that takes bytes. Each call also gives the sink that later calls
use, whether it succeeded or not. -/
class ByteSink (S : Type) where
  /-- Write one byte. -/
  writeByte : S → UInt8 → Except IoError Unit × S
  /-- Pass on everything written so far. -/
  flush : S → Except IoError Unit × S

/-- The answer of a scripted sink to one write. -/
inductive WriteEvent where
  /-- The byte is taken. -/
  | accepted
  /-- The write succeeds without taking the byte. -/
  | nothing
  /-- The write was interrupted and has to be repeated. -/
  | interrupted
  /-- The write failed. -/
  | refused (error : IoError)
  deriving DecidableEq

/-- A sink that keeps the bytes it accepts and fails as told in advance. -/
structure ScriptedSink where
  /-- Bytes accepted so far. -/
  bytes : Array UInt8
  /-- Flushes requested so far. -/
  flushes : Nat
  /-- How many writes are accepted before the script of writes begins. -/
  freeWrites : Nat
  /-- Answers to the writes after those. -/
  writeScript : List WriteEvent
  /-- The error of every write after the script; none if they succeed. -/
  writeFault : Option IoError
  /-- How many flushes succeed before the script of flushes begins. -/
  freeFlushes : Nat
  /-- Answers to the flushes after those; later ones succeed. -/
  flushScript : List (Option IoError)

namespace ScriptedSink

/-- A sink that accepts everything. -/
def reliable : ScriptedSink := ⟨#[], 0, 0, [], none, 0, []⟩

/-- A sink that fails every write after the first `count` bytes. -/
def failingAfter (count : Nat) (error : IoError) : ScriptedSink :=
  ⟨#[], 0, count, [], some error, 0, []⟩

/-- A sink that is interrupted once, after the first `count` bytes. -/
def interruptedAfter (count : Nat) : ScriptedSink :=
  ⟨#[], 0, count, [.interrupted], none, 0, []⟩

/-- A sink that also fails at flush number `index`, counted from 0. -/
def failingFlush (sink : ScriptedSink) (index : Nat) (error : IoError) : ScriptedSink :=
  { sink with freeFlushes := index, flushScript := [some error] }

/-- The answer to a write, once interrupted ones have been repeated, and the
rest of the script. Taking nothing is an error. -/
def nextWrite (fault : Option IoError) :
    List WriteEvent → Except IoError Unit × List WriteEvent
  | [] => (match fault with | some error => .error error | none => .ok (), [])
  | .accepted :: rest => (.ok (), rest)
  | .nothing :: rest => (.error .nothingWritten, rest)
  | .interrupted :: rest => nextWrite fault rest
  | .refused error :: rest => (.error error, rest)

/-- Write one byte as the script says. -/
def writeByte (sink : ScriptedSink) (byte : UInt8) : Except IoError Unit × ScriptedSink :=
  match sink with
  | ⟨bytes, flushes, free + 1, script, fault, freeFlushes, flushScript⟩ =>
    (.ok (), ⟨bytes.push byte, flushes, free, script, fault, freeFlushes, flushScript⟩)
  | ⟨bytes, flushes, 0, script, fault, freeFlushes, flushScript⟩ =>
    match nextWrite fault script with
    | (.ok (), rest) =>
      (.ok (), ⟨bytes.push byte, flushes, 0, rest, fault, freeFlushes, flushScript⟩)
    | (.error error, rest) =>
      (.error error, ⟨bytes, flushes, 0, rest, fault, freeFlushes, flushScript⟩)

/-- The answer to a flush, and the rest of the script. -/
def nextFlush : List (Option IoError) → Except IoError Unit × List (Option IoError)
  | [] => (.ok (), [])
  | none :: rest => (.ok (), rest)
  | some error :: rest => (.error error, rest)

/-- Flush as the script says. -/
def flush (sink : ScriptedSink) : Except IoError Unit × ScriptedSink :=
  match sink with
  | ⟨bytes, flushes, freeWrites, script, fault, free + 1, flushScript⟩ =>
    (.ok (), ⟨bytes, flushes + 1, freeWrites, script, fault, free, flushScript⟩)
  | ⟨bytes, flushes, freeWrites, script, fault, 0, flushScript⟩ =>
    match nextFlush flushScript with
    | (answer, rest) => (answer, ⟨bytes, flushes + 1, freeWrites, script, fault, 0, rest⟩)

instance : ByteSink ScriptedSink where
  writeByte := writeByte
  flush := flush

end ScriptedSink

/-- A line-buffered sink over a device that takes everything or nothing. -/
structure LineBuffer where
  /-- Bytes that the device has taken. -/
  written : Array UInt8
  /-- Bytes waiting in the buffer. -/
  waiting : Array UInt8
  /-- The error of every write to the device; none if it takes them. -/
  fault : Option IoError

namespace LineBuffer

/-- Number of bytes that the buffer holds. -/
def capacity : Nat := 1024

/-- The byte that ends a line. -/
def newline : UInt8 := 10

/-- An empty buffer before a device. -/
def ofDevice (fault : Option IoError) : LineBuffer := ⟨#[], #[], fault⟩

/-- Hand the waiting bytes to the device. With none waiting, the device is not
asked. -/
def drain (buffer : LineBuffer) : Except IoError Unit × LineBuffer :=
  match buffer with
  | ⟨written, waiting, fault⟩ =>
    if waiting.isEmpty then (.ok (), ⟨written, waiting, fault⟩)
    else
      match fault with
      | some error => (.error error, ⟨written, waiting, fault⟩)
      | none => (.ok (), ⟨written ++ waiting, #[], fault⟩)

/-- Put one byte behind the waiting ones. -/
def push (buffer : LineBuffer) (byte : UInt8) : LineBuffer :=
  match buffer with
  | ⟨written, waiting, fault⟩ => ⟨written, waiting.push byte, fault⟩

/-- Hand one byte straight to the device. -/
def send (buffer : LineBuffer) (byte : UInt8) : Except IoError Unit × LineBuffer :=
  match buffer with
  | ⟨written, waiting, fault⟩ =>
    match fault with
    | some error => (.error error, ⟨written, waiting, fault⟩)
    | none => (.ok (), ⟨written.push byte, waiting, fault⟩)

/-- Whether a byte can only be taken after the waiting ones have gone: the
buffer is full, or it still holds a finished line that another byte follows. -/
def mustDrain (buffer : LineBuffer) (byte : UInt8) : Bool :=
  decide (capacity ≤ buffer.waiting.size) ||
    (buffer.waiting.back? == some newline && byte != newline)

/-- Write one byte. A newline goes to the device at once, with everything that
waits before it. -/
def writeByte (buffer : LineBuffer) (byte : UInt8) : Except IoError Unit × LineBuffer :=
  if byte = newline ∧ buffer.waiting.isEmpty then buffer.send byte
  else
    match (if buffer.mustDrain byte then buffer.drain else (.ok (), buffer)) with
    | (.error error, buffer) => (.error error, buffer)
    | (.ok (), buffer) =>
      if byte = newline then (buffer.push byte).drain else (.ok (), buffer.push byte)

/-- What the device has taken, and the buffer with these bytes forgotten. -/
def takeWritten (buffer : LineBuffer) : List UInt8 × LineBuffer :=
  match buffer with
  | ⟨written, waiting, fault⟩ => (written.toList, ⟨#[], waiting, fault⟩)

instance : ByteSink LineBuffer where
  writeByte := writeByte
  flush := drain

end LineBuffer

/-- A channel that reads from a list of events and writes to a sink. -/
structure StreamChannel (S : Type) where
  /-- Answers to the next reads. -/
  reader : List ReadEvent
  /-- Where output goes. -/
  sink : S

namespace StreamChannel

variable {S : Type} [ByteSink S]

/-- Report a stream's error as a fault of the machine. -/
def report {α : Type} : Except IoError α → Except Fault α
  | .ok value => .ok value
  | .error error => .error (.io error)

/-- Write one byte to the sink. -/
def output (channel : StreamChannel S) (byte : UInt8) : Except Fault Unit × StreamChannel S :=
  match channel with
  | ⟨reader, sink⟩ =>
    match ByteSink.writeByte sink byte with
    | (answer, sink) => (report answer, ⟨reader, sink⟩)

/-- Flush the sink. -/
def flush (channel : StreamChannel S) : Except Fault Unit × StreamChannel S :=
  match channel with
  | ⟨reader, sink⟩ =>
    match ByteSink.flush sink with
    | (answer, sink) => (report answer, ⟨reader, sink⟩)

/-- The word that a read stands for: the byte, or `eofWord` at the end. -/
def wordOf : Option UInt8 → Word
  | some byte => byte.toNat
  | none => eofWord

/-- Flush the sink, so that a prompt is seen before the program waits for an
answer, and read one byte. -/
def input (channel : StreamChannel S) : Except Fault Word × StreamChannel S :=
  match channel.flush with
  | (.error fault, channel) => (.error fault, channel)
  | (.ok (), ⟨reader, sink⟩) =>
    match readByte reader with
    | (.ok byte, rest) => (.ok (wordOf byte), ⟨rest, sink⟩)
    | (.error error, rest) => (.error (.io error), ⟨rest, sink⟩)

instance : Channel (StreamChannel S) where
  output := output
  input := input

end StreamChannel

end TernarySynth.ByteStream
