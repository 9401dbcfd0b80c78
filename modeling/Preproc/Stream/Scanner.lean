import Preproc.Engine

/-! # Scanners

A scanner hands out the tokens of a source. It always holds the next token, so a flaw is met when
the token before it is taken. A renumbering gives the lines that follow new numbers and, if it
names a file, a new file; tokens are shown at these presumed places.
-/

namespace Preproc

/-- The lines after `after` are numbered from `first` on, in the file of the given name. -/
structure LineMap where
  after : Int
  first : Int
  file : Option String
  deriving DecidableEq, Repr

def LineMap.apply (map : LineMap) (place : Location) : Location :=
  if place.line ≤ map.after then place
  else
    { place with
      file := match map.file with
        | none => place.file
        | some file => if file.isEmpty then place.file else file
      line := map.first + place.line - map.after - 1 }

/-- A source from which tokens are taken one by one. -/
structure Scanner where
  file : String
  /-- The next token, at its physical place. -/
  lookahead : Token
  /-- What follows it. -/
  pending : List Scanned
  /-- Whether a flaw stops the scan. -/
  strict : Bool := false
  lastLine : Int := 0
  lineMap : Option LineMap := none
  deriving Repr

namespace Scanner

/-- Meets the flaw of a token: it is reported, or it stops the scan. -/
def meet (strict : Bool) (flaw : Option Flaw) : Engine Unit :=
  match flaw with
  | none => pure ()
  | some flaw => if strict then throw (.flawed flaw) else Engine.reportFlaw flaw

def openSource (file source : String) (strict : Bool) : Engine Scanner :=
  match scan file source with
  | [] => throw .scanStopped
  | first :: pending => do
    meet strict first.flaw
    return { file, lookahead := first.token, pending, strict }

def presumed (scanner : Scanner) (token : Token) : Token :=
  match scanner.lineMap with
  | none => token
  | some map => token.relocated (map.apply token.location)

def head (scanner : Scanner) : Token :=
  scanner.presumed scanner.lookahead

/-- The scanner after the next token. -/
def advance (scanner : Scanner) : Engine Scanner := do
  let taken := { scanner with lastLine := scanner.lookahead.location.line }
  if scanner.lookahead.isEof then return taken
  match scanner.pending with
  | [] => throw .scanStopped
  | next :: pending => do
    meet scanner.strict next.flaw
    return { taken with lookahead := next.token, pending }

def stopped (scanner : Scanner) : Scanner :=
  { scanner with pending := [] }

def close (scanner : Scanner) : Scanner :=
  { scanner with lookahead := .endOfInput scanner.lookahead.location, pending := [] }

/-- Numbers the line after the last token taken `first`, and those that follow it on. Without a
new name the file keeps the one it was last given. -/
def renumber (scanner : Scanner) (first : Int) (file : Option String) : Scanner :=
  let file := match file with
    | some file => some file
    | none => scanner.lineMap.bind (·.file)
  { scanner with lineMap := some ⟨scanner.lastLine, first, file⟩ }

end Scanner

end Preproc
