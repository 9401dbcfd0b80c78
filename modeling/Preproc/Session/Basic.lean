import Preproc.Expansion.Settle
import Preproc.Include.Basic
import Preproc.Options
import Preproc.Session.Conditional

/-! # Sessions

A session reads tokens from a stack of open files. Each file is the expansion of a scanner,
together with its open conditionals. This module has the state of a session and the actions on raw
tokens from which directives are made.
-/

namespace Preproc

structure InputFile where
  path : String
  /-- The expansion of the scanner of the file. -/
  stream : TokenStream
  /-- The open conditionals, innermost first. -/
  conditionals : List Conditional := []

def InputFile.isSkipping (file : InputFile) : Bool :=
  Conditional.isSkipping file.conditionals

structure Inclusion where
  includer : String
  line : Int
  reference : Reference
  path : String
  deriving DecidableEq, Repr

/-- Where a file was included, as what, and which file it was. -/
def Inclusion.render (inclusion : Inclusion) : String :=
  inclusion.includer ++ ":" ++ toString inclusion.line ++ ": #include "
    ++ inclusion.reference.render ++ " -> " ++ inclusion.path

structure Session where
  options : Options
  includes : IncludeSystem
  /-- The open files, the one being read first. -/
  files : List InputFile := []
  /-- How many files are open. -/
  depth : Nat := 0
  onceOnly : List String := []
  inclusions : Array Inclusion := #[]
  /-- What is read when no file is open. -/
  finish : Token := .endOfInput .unknown
  /-- A token that was shown and not yet taken. -/
  peeked : Option Token := none
  /-- Whether a source was pushed before. -/
  started : Bool := false
  /-- Whether the limit on errors has stopped the session. -/
  stopped : Bool := false

instance : Inhabited Session := ⟨{ options := {}, includes := default }⟩

abbrev SessionM := StateT Session Engine

namespace Session

def report (place : Location) (notice : Notice) : SessionM Unit :=
  Engine.report place notice

def table : SessionM MacroTable :=
  return (← getThe Context).table

def modifyFile (change : InputFile → InputFile) : SessionM Unit :=
  modify fun session =>
    match session.files with
    | [] => session
    | file :: rest => { session with files := change file :: rest }

def rawHead : SessionM Token := do
  let session ← get
  match session.files with
  | [] => return session.finish
  | file :: _ => return file.stream.head

def moveFile (fuel : Nat) (kind : TokenStream.Move) : SessionM Unit := do
  match (← get).files with
  | [] => return ()
  | file :: _ => do
    let stream ← file.stream.move fuel kind
    modifyFile fun file => { file with stream }

def takeRaw (fuel : Nat) : SessionM Token := do
  let token ← rawHead
  moveFile fuel .advance
  return token

def restOfLine (fuel : Nat) : (bound : Nat) → SessionM (List Token)
  | 0 => throw .outOfFuel
  | bound + 1 => do
    if (← rawHead).endsLine then return []
    let token ← takeRaw fuel
    let rest ← restOfLine fuel bound
    return token :: rest

/-- Takes the raw tokens up to the end of the line and forgets them. -/
def skipLine (fuel : Nat) : SessionM Unit := do
  let _ ← restOfLine fuel fuel

def openFile (fuel : Nat) (source path : String) : SessionM Unit := do
  let scanner ← Scanner.openSource path source false
  let stream ← TokenStream.expand fuel (.scanner scanner) none
  modify fun session =>
    { session with files := { path, stream } :: session.files, depth := session.depth + 1 }

inductive Ending where
  /-- Tokens that are left are extra, and reported. -/
  | checked
  /-- Tokens that are left are skipped. -/
  | unchecked
  /-- The end of the line was already taken. -/
  | taken
  deriving DecidableEq, Repr

/-- The ending of a line that is reported unless the directive is quiet. -/
def Ending.checkedUnless (quiet : Bool) : Ending :=
  if quiet then .unchecked else .checked

def endLine (fuel : Nat) (directive : Token) : Ending → SessionM Unit
  | .taken => return ()
  | ending => do
    let next ← rawHead
    if !next.endsLine then
      if ending = .checked then report next.location (.extraTokens directive.lexeme)
      skipLine fuel
    if (← rawHead).kind == .newline then
      let _ ← takeRaw fuel

/-- Takes the name of a macro, or reports that there is none. -/
def expectName (fuel : Nat) (directive : Token) : SessionM (Option Token) := do
  let next ← rawHead
  if next.isIdentifier then return some (← takeRaw fuel)
  report next.location (.expectedInDirective "macro name" directive.lexeme)
  return none

end Session

end Preproc
