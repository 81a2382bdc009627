/-!
# Files

What a command needs to know of the files around it: the working directory and the contents of
files.  A command does not depend on where they come from; `Disk.ofFiles` keeps them in memory.
-/

namespace Whence

/-- Why a file cannot be read. -/
inductive Refusal where
  | missing
  | notDirectory
  | directory
  | nameTooLong
  | other (reason : String)
  deriving DecidableEq, Repr

namespace Refusal

def message : Refusal → String
  | .missing => "No such file or directory (os error 2)"
  | .notDirectory => "Not a directory (os error 20)"
  | .directory => "Is a directory (os error 21)"
  | .nameTooLong => "File name too long (os error 36)"
  | .other reason => reason

/-- Whether there is no file of the name at all. -/
def isAbsence : Refusal → Bool
  | .other _ => false
  | _ => true

end Refusal

structure Disk (m : Type → Type) where
  /-- The working directory, from the root on. -/
  directory : String
  read : String → m (Except Refusal String)

/-- The names that make up a path. -/
def pathNames (path : String) : List String := (path.splitOn "/").filter (!·.isEmpty)

def absolutePath (names : List String) : String := "/" ++ "/".intercalate names

/-- A directory and those above it, the nearest first. -/
def upward (names : List String) : List (List String) :=
  (List.range (names.length + 1)).map fun steps ↦ names.take (names.length - steps)

/-- A file by its path from the root. -/
structure File where
  path : List String
  text : String

namespace Disk

/-- The most bytes of a name. -/
def maxName : Nat := 255

/-- The most bytes of a path. -/
def maxPath : Nat := 4095

/-- The directory or file that names lead to from a directory, whatever exists. -/
def resolve (place : List String) : List String → List String
  | [] => place
  | name :: names =>
    if name = "" ∨ name = "." then resolve place names
    else if name = ".." then resolve place.dropLast names
    else resolve (place ++ [name]) names

def isDirectory (files : List File) (working path : List String) : Bool :=
  path.isPrefixOf working ||
    files.any fun file ↦ path.length < file.path.length && path.isPrefixOf file.path

/-- Follows names one by one from a directory.  All but the last have to lead to directories. -/
def follow (files : List File) (working place : List String) :
    List String → Except Refusal (List String)
  | [] => .ok place
  | name :: names =>
    if isDirectory files working place then
      if maxName < name.utf8ByteSize then .error .nameTooLong
      else follow files working (resolve place [name]) names
    else if files.any (·.path == place) then .error .notDirectory
    else .error .missing

def readFrom (files : List File) (working : List String) (path : String) :
    Except Refusal String := do
  if maxPath < path.utf8ByteSize then throw .nameTooLong
  let start := if path.startsWith "/" then [] else working
  let place ← follow files working start (path.splitOn "/")
  match files.find? (·.path == place) with
  | some file => .ok file.text
  | none => .error (if isDirectory files working place then .directory else .missing)

/-- The disk that holds the given files, with their paths from the root. -/
def ofFiles (directory : String) (files : List (String × String)) : Disk Id :=
  let working := resolve [] (pathNames directory)
  { directory := absolutePath working
    read :=
      readFrom (files.map fun (path, text) ↦ ⟨resolve [] (pathNames path), text⟩) working }

end Disk

end Whence
