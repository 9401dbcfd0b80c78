import Preproc.Macro.Basic

/-! # The macro table

The table holds the macros in force, ordered by name, each with the serial number of its
definition. Serial numbers are never used twice, so they tell apart two definitions of one name
even when a later one replaces an earlier one that is still being played back.
-/

namespace Preproc

/-- A macro together with the serial number of its definition. -/
structure Macro.Entry where
  serial : Nat
  definition : Macro
  deriving DecidableEq, Repr

def Macro.Entry.name (entry : Macro.Entry) : String :=
  entry.definition.name

/-- The macros in force, in ascending order of their names. -/
structure MacroTable where
  entries : List Macro.Entry := []
  nextSerial : Nat := 0
  deriving Repr, Inhabited

namespace MacroTable

/-- Puts an entry in its place, in the place of one of the same name if there is one. -/
def insert (entry : Macro.Entry) : List Macro.Entry → List Macro.Entry
  | [] => [entry]
  | other :: rest =>
    if entry.name = other.name then entry :: rest
    else if entry.name < other.name then entry :: other :: rest
    else other :: insert entry rest

def entry? (table : MacroTable) (name : String) : Option Macro.Entry :=
  table.entries.find? fun entry => entry.name == name

def lookup (table : MacroTable) (name : String) : Option Macro :=
  (table.entry? name).map (·.definition)

def contains (table : MacroTable) (name : String) : Bool :=
  (table.entry? name).isSome

def size (table : MacroTable) : Nat :=
  table.entries.length

def define (table : MacroTable) (definition : Macro) : MacroTable :=
  { entries := insert ⟨table.nextSerial, definition⟩ table.entries
    nextSerial := table.nextSerial + 1 }

def undefine (table : MacroTable) (name : String) : MacroTable :=
  { table with entries := table.entries.filter fun entry => entry.name != name }

def macros (table : MacroTable) : List Macro :=
  table.entries.map (·.definition)

/-- One line for each macro, in order; builtin macros are listed only on request. -/
def describe (table : MacroTable) (builtins : Bool) : List String :=
  (table.macros.filter fun definition => builtins || !definition.isBuiltin).map Macro.describe

def initial : MacroTable :=
  (({} : MacroTable).define .lineBuiltin).define .fileBuiltin

end MacroTable

end Preproc
