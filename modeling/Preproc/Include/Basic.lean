import Preproc.Failure
import Preproc.Include.Path

/-! # Include systems

An include system finds the file that an include line names and reads it. Files kept in memory are
found by the text of their paths.
-/

namespace Preproc

/-- What an include line names: in angle brackets or in quotes. -/
structure Reference where
  name : String
  angled : Bool
  deriving DecidableEq, Repr

def Reference.render (reference : Reference) : String :=
  if reference.angled then "<" ++ reference.name ++ ">" else "\"" ++ reference.name ++ "\""

/-- Finds and reads files. -/
structure IncludeSystem where
  /-- The path of the file that a reference names, seen from the file that includes it, if there
  is such a file. -/
  resolve : Reference → (includer : Option String) → Except FileError (Option String)
  read : String → Except FileError String

instance : Inhabited IncludeSystem where
  default := { resolve := fun _ _ => .ok none, read := fun path => .error (.notFound path) }

structure MemoryFiles where
  /-- Texts by path; the paths are compared as written. -/
  files : List (String × String) := []
  directories : List String := []
  /-- Paths that cannot be read, with the reason. -/
  broken : List (String × String) := []
  deriving Repr

namespace MemoryFiles

def contains (memory : MemoryFiles) (path : String) : Bool :=
  (memory.files.lookup path).isSome || (memory.broken.lookup path).isSome

/-- The paths at which a reference may be found, in order: beside the including file if the
reference is quoted, in the directories, and by itself. -/
def candidates (memory : MemoryFiles) (reference : Reference) (includer : Option String) :
    List String :=
  let name := Path.parse reference.name
  let beside := match includer with
    | some includer => if reference.angled then [] else [(Path.parse includer).parent.join name]
    | none => []
  let searched := memory.directories.map fun directory => (Path.parse directory).join name
  (beside ++ searched ++ [name]).map Path.render

def read (memory : MemoryFiles) (path : String) : Except FileError String :=
  match memory.broken.lookup path with
  | some reason => .error (.unreadable reason)
  | none =>
    match memory.files.lookup path with
    | some text => .ok text
    | none => .error (.notFound path)

def system (memory : MemoryFiles) : IncludeSystem where
  resolve reference includer := .ok ((memory.candidates reference includer).find? memory.contains)
  read := memory.read

end MemoryFiles

end Preproc
