import Preproc.Include.Basic

/-! # Trees of files

A tree of directories holds files of bytes. A path is followed segment by segment: every segment
but the last has to be a directory, and two dots lead to the directory above. Paths and segments
have a greatest length. The text of a file is its bytes read as UTF-8, with every line end as a
newline.
-/

namespace Preproc

/-- Directories and files, each at its list of segments from the root. -/
structure FileTree where
  files : List (List String × ByteArray) := []
  directories : List (List String) := []

namespace FileTree

/-- What a path leads to. -/
inductive Target where
  | file (segments : List String) (bytes : ByteArray)
  | directory (segments : List String)

/-- Whether there is a directory at the given segments: one of the listed directories, or one on
the way to a directory or a file. -/
def isDirectory (tree : FileTree) (segments : List String) : Bool :=
  segments.isEmpty || tree.directories.any segments.isPrefixOf
    || tree.files.any fun (place, _) => segments.isPrefixOf place && segments != place

def at? (tree : FileTree) (segments : List String) : Option Target :=
  match tree.files.lookup segments with
  | some bytes => some (.file segments bytes)
  | none => if tree.isDirectory segments then some (.directory segments) else none

def pathLimit : Nat := 4095

def segmentLimit : Nat := 255

def follow (tree : FileTree) (path : String) : Target → List String → Except FileError Target
  | target, [] => .ok target
  | .file _ _, _ :: _ => .error (.notDirectory path)
  | .directory here, segment :: rest =>
    if segment == ".." then tree.follow path (.directory here.dropLast) rest
    else if segmentLimit < segment.utf8ByteSize then .error (.tooLong path)
    else match tree.at? (here ++ [segment]) with
      | some target => tree.follow path target rest
      | none => .error (.notFound path)

def locate (tree : FileTree) (path : Path) : Except FileError Target :=
  let text := path.render
  if text.contains '\x00' then .error (.unnameable text)
  else if pathLimit < text.utf8ByteSize then .error (.tooLong text)
  else tree.follow text (.directory []) path.segments

def decode (path : String) (bytes : ByteArray) : Except FileError String :=
  match String.fromUTF8? bytes with
  | some text => .ok (String.ofList (Source.normalizeNewlines text.toList))
  | none => .error (.undecodable path)

def read (tree : FileTree) (path : String) : Except FileError String := do
  match ← tree.locate (Path.parse path) with
  | .file _ bytes => decode path bytes
  | .directory _ => .error (.isDirectory path)

/-- The path without detours of the file that a path leads to, if it leads to one. A path that is
too long leads nowhere and cannot be looked up. -/
def resolveFile (tree : FileTree) (path : Path) : Except FileError (Option String) :=
  match tree.locate path with
  | .ok (.file segments _) => .ok (some (Path.render ⟨.slash, segments⟩))
  | .error (.tooLong text) => .error (.tooLong text)
  | _ => .ok none

/-- The directories in which a reference is looked for: that of the including file if the
reference is quoted and the file has a path of its own, and the given ones. -/
def searchedDirectories (directories : List String) (reference : Reference)
    (includer : Option String) : List Path :=
  let beside := match includer with
    | some includer =>
      if reference.angled || includer.startsWith "<" then [] else [(Path.parse includer).parent]
    | none => []
  beside ++ directories.map Path.parse

def system (tree : FileTree) (directories : List String) : IncludeSystem where
  resolve reference includer :=
    (searchedDirectories directories reference includer).findSomeM? fun directory =>
      tree.resolveFile (directory.join (Path.parse reference.name))
  read := tree.read

end FileTree

end Preproc
