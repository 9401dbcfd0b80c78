/-! # Paths

A path is a root, which may be missing, and a list of segments. Repeated slashes and segments of a
single dot do not count; two leading slashes are a root of their own; a segment of two dots stays.
-/

namespace Preproc

inductive Path.Root where
  | relative
  | slash
  | twoSlashes
  deriving DecidableEq, Repr

structure Path where
  root : Path.Root
  segments : List String
  deriving DecidableEq, Repr

namespace Path

def splitSlashes : List Char → List (List Char)
  | [] => [[]]
  | c :: rest =>
    if c == '/' then [] :: splitSlashes rest
    else match splitSlashes rest with
      | [] => [[c]]
      | first :: others => (c :: first) :: others

/-- The root that leading slashes give. -/
def rootOf (text : List Char) : Root :=
  match (text.takeWhile (· == '/')).length with
  | 0 => .relative
  | 2 => .twoSlashes
  | _ => .slash

def parse (text : String) : Path :=
  { root := rootOf text.toList
    segments := ((splitSlashes text.toList).filter
      fun segment => segment != [] && segment != ['.']).map String.ofList }

def Root.render : Root → String
  | .relative => ""
  | .slash => "/"
  | .twoSlashes => "//"

def render (path : Path) : String :=
  let text := path.root.render ++ "/".intercalate path.segments
  if text.isEmpty then "." else text

/-- One path seen from another: a path with a root stands alone. -/
def join (path other : Path) : Path :=
  if other.root = .relative then { path with segments := path.segments ++ other.segments }
  else other

/-- The path without its last segment. -/
def parent (path : Path) : Path :=
  { path with segments := path.segments.dropLast }

end Path

end Preproc
