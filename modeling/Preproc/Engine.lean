import Preproc.Diagnostic.Basic
import Preproc.Macro.Table

/-! # The engine

Reading tokens reports diagnostics, makes up text, looks up macros and leaves a trail of events.
These are the parts of the context that every engine action shares. When an action fails, what it
did to the context before the failure remains.

Text that expansion makes up (stringized arguments, pasted tokens, expansions of builtin macros) is
kept in an arena. Equal texts are kept once; every request is counted.
-/

namespace Preproc

/-- The texts made up in one run. -/
structure Arena where
  pool : List String := []
  allocations : Nat := 0
  allocatedBytes : Nat := 0
  deriving Repr, Inhabited

namespace Arena

def contains (arena : Arena) (text : String) : Bool :=
  arena.pool.contains text

/-- How many texts are kept. -/
def size (arena : Arena) : Nat :=
  arena.pool.length

def allocate (arena : Arena) (text : String) : Arena :=
  if arena.contains text then { arena with allocations := arena.allocations + 1 }
  else
    { pool := text :: arena.pool
      allocations := arena.allocations + 1
      allocatedBytes := arena.allocatedBytes + text.utf8ByteSize }

end Arena

/-- What happens in a run, for those who follow it. -/
inductive Event where
  | reported (diagnostic : Diagnostic)
  | defining (definition : Macro)
  | undefining (name : String)
  | expanding (name : String) (busy : List String)
  | notExpanding (name : String)
  | including (path : String)
  deriving DecidableEq, Repr

namespace Event

def quoteNames (names : List String) : String :=
  "[" ++ ", ".intercalate (names.map fun name => "'" ++ name ++ "'") ++ "]"

def message : Event → String
  | reported diagnostic => diagnostic.renderWithCode
  | defining definition => "Defining " ++ definition.describe
  | undefining name => "Undefining " ++ name
  | expanding name busy => "Expanding macro " ++ name ++ " (busy: " ++ quoteNames busy ++ ")"
  | notExpanding name => "Not expanding function macro " ++ name
  | including path => "Including " ++ path

end Event

/-- What all engine actions share. -/
structure Context where
  sink : Sink := {}
  arena : Arena := {}
  table : MacroTable := .initial
  events : Array Event := #[]
  deriving Inhabited

abbrev Engine := EStateM Failure Context

namespace Engine

def trace (event : Event) : Engine Unit :=
  modify fun context => { context with events := context.events.push event }

def report (place : Location) (notice : Notice) : Engine Unit := do
  let diagnostic := (← get).sink.diagnosticOf place notice
  modify fun context => { context with sink := context.sink.record diagnostic }
  trace (.reported diagnostic)

/-- Stops with a broken promise. -/
def fault {α : Type} (fault : Fault) : Engine α :=
  throw (.internal fault)

/-- Keeps made-up text. -/
def allocate (text : String) : Engine Unit :=
  modify fun context => { context with arena := context.arena.allocate text }

def entry? (name : String) : Engine (Option Macro.Entry) :=
  return (← get).table.entry? name

def define (definition : Macro) : Engine Unit := do
  modify fun context => { context with table := context.table.define definition }
  trace (.defining definition)

def undefine (name : String) : Engine Unit := do
  trace (.undefining name)
  modify fun context => { context with table := context.table.undefine name }

def noticeOf : Source.Unfinished → Notice
  | .blockComment => .unterminatedComment
  | what => .unterminatedLiteral what.describe

def reportFlaw (flaw : Flaw) : Engine Unit :=
  report flaw.location (noticeOf flaw.what)

/-- Scans made-up text at one location and reports its flaws. -/
def rescan (text : String) (location : Location) : Engine (List Token) := do
  (scanFlaws location.file text).forM reportFlaw
  return Preproc.rescan text location

/-- Compiles a macro and reports the complaints about its body. -/
def build (nameToken : Token) (parameters : Option (List Parameter)) (body : List Token)
    (endLocation : Location) : Engine Macro := do
  let (built, complaints) := Macro.build nameToken parameters body endLocation
  complaints.forM fun (token, notice) => report token.location notice
  match built with
  | .ok definition => return definition
  | .error fault => Engine.fault fault

end Engine

end Preproc
