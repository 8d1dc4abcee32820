import TernarySynth.StreamError

/-!
# Finding files

A working directory is a list of names, each of a file with its bytes or of an
empty directory. A path is followed name by name: an empty name and `.` stay
where they are, `..` leads one directory up, and nothing lies below a file, not
even after a closing slash. Where the working directory lies, and what the
places outside it are, differs from system to system and is a parameter.
-/

namespace TernarySynth.FileTree

open StreamError

/-- What a name in a directory stands for. -/
inductive Entry where
  /-- A file and its bytes. -/
  | file (bytes : List UInt8)
  /-- A directory. -/
  | directory

/-- The working directory. -/
abbrev Directory := List (String × Entry)

/-- Where following a path has led. -/
inductive Place where
  /-- The working directory itself. -/
  | working
  /-- An empty directory in it. -/
  | below
  /-- A directory outside it, by the names that lead to it from the root. -/
  | system (names : List String)
  /-- A file. -/
  | file (bytes : List UInt8)
  /-- The input of whoever reads it. -/
  | input

/-- The longest name, in bytes, that a directory can hold. -/
def nameLimit : Nat := 255

/-- The longest path, in bytes. -/
def pathLimit : Nat := 4095

/-- Where paths lead. -/
structure FileSystem where
  /-- The entries of the working directory. -/
  working : Directory
  /-- The names that lead from the root to the directory in which it lies. -/
  above : List String
  /-- The place that names lead to from the root, if there is one. -/
  outside : List String → Option Place

/-- A working directory in the root, with nothing beside it. -/
def FileSystem.ofDirectory (directory : Directory) : FileSystem := ⟨directory, [], fun _ => none⟩

instance : Coe Directory FileSystem := ⟨.ofDirectory⟩

/-- Follow one name. -/
def follow (files : FileSystem) : Place → String → Except IoError Place
  | .file _, _ => .error .notADirectory
  | .input, _ => .error .notADirectory
  | place, "" => .ok place
  | place, "." => .ok place
  | .below, ".." => .ok .working
  | .working, ".." => .ok (.system files.above)
  | .system names, ".." => .ok (.system names.dropLast)
  | place, name =>
    if nameLimit < name.utf8ByteSize then .error .nameTooLong
    else
      match place with
      | .working =>
        match files.working.lookup name with
        | some (.file bytes) => .ok (.file bytes)
        | some .directory => .ok .below
        | none => .error .notFound
      | .system names =>
        match files.outside (names ++ [name]) with
        | some place => .ok place
        | none => .error .notFound
      | _ => .error .notFound

/-- Follow a path from the working directory, or from the root if it begins
with a slash. The empty path leads nowhere. -/
def locate (files : FileSystem) (path : String) : Except IoError Place :=
  if path.isEmpty then .error .notFound
  else if path.toList.contains '\x00' then .error .nulInName
  else if pathLimit < path.utf8ByteSize then .error .nameTooLong
  else
    let start := if path.toList.head? = some '/' then Place.system [] else .working
    (path.splitOn "/").foldlM (follow files) start

/-- The bytes of the file at a place; none if they come from the input. -/
def Place.contents : Place → Except IoError (Option (List UInt8))
  | .file bytes => .ok (some bytes)
  | .input => .ok none
  | _ => .error .isADirectory

/-- The bytes of the file at a path, for somebody whose input is `input`. -/
def contents (files : FileSystem) (path : String) (input : List UInt8) :
    Except IoError (List UInt8) :=
  match locate files path with
  | .error error => .error error
  | .ok place => place.contents.map fun bytes => bytes.getD input

/-- Whether a path leads anywhere. -/
def pathExists (files : FileSystem) (path : String) : Bool :=
  (locate files path).isOk

/-- Whether a path leads to the input of whoever follows it. -/
def isInput (files : FileSystem) (path : String) : Bool :=
  match locate files path with
  | .ok .input => true
  | _ => false

end TernarySynth.FileTree
