/-!
# Input and output errors

The reasons for which a stream or a file refuses a request, with the text that
is reported for each. An interrupted request is not among them: it is repeated
until something else happens, so nobody ever sees it fail.
-/

namespace TernarySynth.StreamError

/-- Why a read, write, flush or file access failed. -/
inductive IoError where
  /-- The other end has gone. -/
  | brokenPipe
  /-- The stream ended inside a request. -/
  | unexpectedEof
  /-- The request is not allowed. -/
  | permissionDenied
  /-- The request took too long. -/
  | timedOut
  /-- Nothing is there yet, but more may come. -/
  | wouldBlock
  /-- A write was accepted with no byte taken. -/
  | nothingWritten
  /-- A name holds the character that ends names. -/
  | nulInName
  /-- The operating system gave a numbered reason. -/
  | system (code : Nat) (reason : String)
  deriving DecidableEq

/-- The reported text. -/
def IoError.message : IoError → String
  | .brokenPipe => "broken pipe"
  | .unexpectedEof => "unexpected end of file"
  | .permissionDenied => "permission denied"
  | .timedOut => "timed out"
  | .wouldBlock => "operation would block"
  | .nothingWritten => "failed to write whole buffer"
  | .nulInName => "file name contained an unexpected NUL byte"
  | .system code reason => reason ++ " (os error " ++ toString code ++ ")"

/-- A file name that leads nowhere. -/
def IoError.notFound : IoError := .system 2 "No such file or directory"

/-- A path that goes through something that is no directory. -/
def IoError.notADirectory : IoError := .system 20 "Not a directory"

/-- A directory where a file was wanted. -/
def IoError.isADirectory : IoError := .system 21 "Is a directory"

/-- A name that is longer than any name can be. -/
def IoError.nameTooLong : IoError := .system 36 "File name too long"

/-- No room is left on the device. -/
def IoError.noSpace : IoError := .system 28 "No space left on device"

/-- The system's own report of a pipe without a reader. -/
def IoError.pipeClosed : IoError := .system 32 "Broken pipe"

end TernarySynth.StreamError
