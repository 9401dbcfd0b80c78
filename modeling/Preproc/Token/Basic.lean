/-! # Tokens and their places

A location names a file, a line and a column. Lines and columns count from one; the presumed lines
that a renumbering gives may be any integer. A token is a kind, the text it was written as, its
place, and whether white space came before it.
-/

namespace Preproc

/-- A file, a line and a column. -/
structure Location where
  file : String
  line : Int
  column : Int
  deriving DecidableEq, Repr, Inhabited

namespace Location

/-- The place of what has no place in any source. -/
def unknown : Location := ⟨"<unknown>", 0, 0⟩

/-- The place of what exists before any source is read. -/
def builtin : Location := ⟨"<built-in>", 0, 0⟩

/-- File, line and column, separated by colons. -/
def render (place : Location) : String :=
  place.file ++ ":" ++ toString place.line ++ ":" ++ toString place.column

end Location

/-- The kinds of preprocessing tokens. A `directive` is the `#` that opens a directive line. -/
inductive TokenKind where
  | identifier
  | number
  | character
  | string
  | punctuator
  | other
  | directive
  | newline
  | eof
  deriving DecidableEq, Repr, Inhabited

structure Token where
  kind : TokenKind
  lexeme : String
  location : Location
  leadingSpace : Bool := false
  deriving DecidableEq, Repr, Inhabited

namespace Token

def endOfInput (location : Location) : Token :=
  { kind := .eof, lexeme := "", location }

def isEof (token : Token) : Bool :=
  token.kind == .eof

def endsLine (token : Token) : Bool :=
  token.kind == .newline || token.kind == .eof

def isPunctuator (token : Token) (text : String) : Bool :=
  token.kind == .punctuator && token.lexeme == text

theorem isPunctuator_eq_false {token : Token} {text other : String}
    (same : token.isPunctuator text = true) (differs : text ≠ other) :
    token.isPunctuator other = false := by
  simp only [isPunctuator, Bool.and_eq_true, beq_iff_eq] at same
  simp [isPunctuator, same.2, differs]

def isIdentifier (token : Token) : Bool :=
  token.kind == .identifier

/-- The same token at another place. -/
def relocated (token : Token) (location : Location) : Token :=
  { token with location }

/-- The same token with the white space before it set or cleared. -/
def withLeadingSpace (token : Token) (leadingSpace : Bool) : Token :=
  { token with leadingSpace }

@[simp] theorem isEof_endOfInput (location : Location) : (endOfInput location).isEof = true := rfl

@[simp] theorem location_relocated (token : Token) (location : Location) :
    (token.relocated location).location = location := rfl

end Token

end Preproc
