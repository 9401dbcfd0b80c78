import Preproc.Notice
import Preproc.Token.Basic

/-! # Diagnostics

A diagnostic is a notice at a place with its final severity. A sink collects diagnostics in the
order in which they are reported and counts errors and warnings; it may take warnings for errors.
-/

namespace Preproc

/-- A reported notice. Its place may be known only as a file. -/
structure Diagnostic where
  severity : Severity
  file : String
  message : String
  line : Option Int := none
  column : Option Int := none
  code : Option String := none
  deriving DecidableEq, Repr

namespace Diagnostic

/-- Place, severity and wording on one line. -/
def render (diagnostic : Diagnostic) : String :=
  let place := match diagnostic.line, diagnostic.column with
    | some line, some column =>
      diagnostic.file ++ ":" ++ toString line ++ ":" ++ toString column
    | _, _ => diagnostic.file
  place ++ ": " ++ diagnostic.severity.word ++ ": " ++ diagnostic.message

/-- The line of a diagnostic, followed by its code if it has one. -/
def renderWithCode (diagnostic : Diagnostic) : String :=
  match diagnostic.code with
  | some code => diagnostic.render ++ " [" ++ code ++ "]"
  | none => diagnostic.render

def firstError? (diagnostics : List Diagnostic) : Option Diagnostic :=
  diagnostics.find? fun diagnostic => diagnostic.severity == .error

end Diagnostic

/-- Collects diagnostics. -/
structure Sink where
  warnAsError : Bool := false
  diagnostics : Array Diagnostic := #[]
  errorCount : Nat := 0
  warningCount : Nat := 0
  deriving Repr, Inhabited

namespace Sink

def severityOf (sink : Sink) (notice : Notice) : Severity :=
  if notice.severity == .warning && sink.warnAsError then .error else notice.severity

def diagnosticOf (sink : Sink) (place : Location) (notice : Notice) : Diagnostic :=
  { severity := sink.severityOf notice
    file := place.file
    message := notice.message
    line := some place.line
    column := some place.column
    code := some notice.code }

def record (sink : Sink) (diagnostic : Diagnostic) : Sink :=
  { sink with
    diagnostics := sink.diagnostics.push diagnostic
    errorCount := sink.errorCount + if diagnostic.severity == .error then 1 else 0
    warningCount := sink.warningCount + if diagnostic.severity == .warning then 1 else 0 }

def report (sink : Sink) (place : Location) (notice : Notice) : Sink :=
  sink.record (sink.diagnosticOf place notice)

def hasErrors (sink : Sink) : Bool :=
  0 < sink.errorCount

end Sink

end Preproc
