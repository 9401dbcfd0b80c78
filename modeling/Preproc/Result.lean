import Preproc.Session.Read

/-! # Preprocessing a source

A source is preprocessed by reading a session on it to the end. The result has the tokens, the
diagnostics, the files that were included and the macros that remain.
-/

namespace Preproc

/-- What preprocessing a source gives. -/
structure Result where
  tokens : List Token
  diagnostics : List Diagnostic
  inclusions : List Inclusion
  /-- The macros that remain, described in order. -/
  macros : List String
  format : DiagnosticFormat := .human
  deriving Repr

namespace Result

def text (result : Result) : String :=
  Token.spell result.tokens

/-- The tokens without the end. -/
def lexemes (result : Result) : List String :=
  (result.tokens.filter fun token => !token.isEof).map (·.lexeme)

def firstError? (result : Result) : Option Diagnostic :=
  Diagnostic.firstError? result.diagnostics

def hasErrors (result : Result) : Bool :=
  result.firstError?.isSome

/-- The diagnostics in the format that was asked for. -/
def renderDiagnostics (result : Result) : String :=
  Diagnostic.renderAll result.format result.diagnostics

/-- The result, unless there was an error. -/
def strict (result : Result) : Except Diagnostic Result :=
  match result.firstError? with
  | some diagnostic => .error diagnostic
  | none => .ok result

end Result

def Options.context (options : Options) : Context :=
  { sink := { warnAsError := options.warnAsError } }

/-- A session that has nothing to read. With a sink of the caller's own, the options may ask for
warnings as errors only if that sink takes them so. -/
def Session.create (options : Options) (includes : IncludeSystem) (supplied : Option Sink) :
    Except OptionsError (Session × Context) :=
  match supplied with
  | none => .ok ({ options, includes }, options.context)
  | some sink =>
    if options.warnAsError && !sink.warnAsError then .error .sinkDisagrees
    else .ok ({ options, includes }, { sink })

def preprocessWith (fuel : Nat) (options : Options) (source file : String) : SessionM Result := do
  Session.push fuel source file
  let tokens ← Session.readAll fuel fuel
  let context ← getThe Context
  let session ← get
  return {
    tokens
    diagnostics := context.sink.diagnostics.toList
    inclusions := session.inclusions.toList
    macros := context.table.describe false
    format := options.format }

/-- The bound on steps that stands in for none: no run comes near it. -/
def ampleFuel : Nat := Nat.pow 10 18

/-- Preprocesses a source in a bounded number of steps. -/
def preprocessWithin (fuel : Nat) (options : Options) (includes : IncludeSystem)
    (source file : String) : EStateM.Result Failure Context Result :=
  ((preprocessWith fuel options source file).run' { options, includes }).run options.context

def preprocess (options : Options) (includes : IncludeSystem) (source file : String) :
    EStateM.Result Failure Context Result :=
  preprocessWithin ampleFuel options includes source file

end Preproc
