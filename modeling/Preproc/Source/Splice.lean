/-! # Physical and logical lines

Before scanning, line ends are normalised to a single newline, and a backslash directly before a
newline joins two lines. Every character that survives keeps its physical position, and so does
the end of the source.
-/

namespace Preproc.Source

/-- A line and a column, both counted from one. -/
structure Position where
  line : Nat
  column : Nat
  deriving DecidableEq, Repr, Inhabited

namespace Position

/-- Where a source begins. -/
def start : Position := ⟨1, 1⟩

def nextLine (position : Position) : Position := ⟨position.line + 1, 1⟩

def nextColumn (position : Position) : Position := ⟨position.line, position.column + 1⟩

def after (position : Position) (c : Char) : Position :=
  if c == '\n' then position.nextLine else position.nextColumn

end Position

/-- Carriage returns, alone or before a newline, become newlines. -/
def normalizeNewlines : List Char → List Char
  | [] => []
  | '\r' :: '\n' :: rest => '\n' :: normalizeNewlines rest
  | c :: rest => (if c == '\r' then '\n' else c) :: normalizeNewlines rest

/-- The characters of a source that survive splicing, each at its physical position, and the
position of its end. -/
structure Spliced where
  chars : List (Char × Position)
  finish : Position
  deriving Repr

namespace Spliced

def text (spliced : Spliced) : List Char :=
  spliced.chars.map (·.1)

def positions (spliced : Spliced) : List Position :=
  spliced.chars.map (·.2) ++ [spliced.finish]

theorem length_positions (spliced : Spliced) :
    spliced.positions.length = spliced.text.length + 1 := by
  simp [positions, text]

end Spliced

def spliceFrom : Position → List Char → Spliced
  | position, [] => ⟨[], position⟩
  | position, '\\' :: '\n' :: rest => spliceFrom position.nextLine rest
  | position, c :: rest =>
    let spliced := spliceFrom (position.after c) rest
    ⟨(c, position) :: spliced.chars, spliced.finish⟩

/-- The logical text of a source, with physical positions. -/
def splice (source : List Char) : Spliced :=
  spliceFrom .start (normalizeNewlines source)

end Preproc.Source
