import Preproc.Diagnostic.Format
import Preproc.Text.Character

/-! # Options

Options come as they were given and are checked as a whole: the format has to be known, the limits
have to make sense, and every macro to define or undefine has to be named properly. What the
options define is read as a source of definition lines before anything else.
-/

namespace Preproc

open Preproc.Text

inductive OptionsError where
  | unsupportedFormat (name : String)
  | invalidDepthLimit (limit : Int)
  | invalidErrorLimit (limit : Int)
  | invalidDefinition (text : String)
  | invalidName (name : String)
  /-- A sink was supplied that does not take warnings for errors although the options say so. -/
  | sinkDisagrees
  deriving DecidableEq, Repr

/-- The wording of a refusal. -/
def OptionsError.message : OptionsError → String
  | .unsupportedFormat name => "Unsupported diagnostic format: " ++ name
  | .invalidDepthLimit limit => "Invalid include depth limit: " ++ toString limit
  | .invalidErrorLimit limit => "Invalid error limit: " ++ toString limit
  | .invalidDefinition text => "Invalid macro definition: " ++ text
  | .invalidName name => "Invalid macro name: " ++ name
  | .sinkDisagrees => "warn_as_error must be set on the supplied diagnostic sink"

structure OptionDefinition where
  head : String
  body : String
  deriving DecidableEq, Repr

/-- Whether a character can begin a name on the command line. -/
def isOptionNameStart (c : Char) : Bool :=
  c.isAlpha || c == '_'

/-- Whether a text is a list of parameters: parentheses with no other closing one inside. -/
def isParameterList : List Char → Bool
  | '(' :: rest => rest.getLast? == some ')' && !rest.dropLast.contains ')'
  | _ => false

/-- Whether a text is a name with an optional list of parameters. -/
def isOptionHead : List Char → Bool
  | [] => false
  | c :: rest =>
    let after := rest.dropWhile isWordChar
    isOptionNameStart c && (after.isEmpty || isParameterList after)

/-- Splits `NAME`, `NAME=body`, `NAME(parameters)` or `NAME(parameters)=body`. Without a body the
macro is defined as `1`. -/
def parseDefinition (text : String) : Except OptionsError OptionDefinition :=
  let chars := text.toList
  let head := trim (chars.takeWhile (· != '='))
  let body := if chars.contains '=' then (chars.dropWhile (· != '=')).tail else ['1']
  if isOptionHead head then .ok ⟨String.ofList head, String.ofList body⟩
  else .error (.invalidDefinition text)

structure OptionsInput where
  includeDirectories : List String := []
  defines : List String := []
  undefines : List String := []
  format : String := "human"
  warnAsError : Bool := false
  maxIncludeDepth : Int := 200
  errorLimit : Int := 0
  deriving Repr

/-- Options that were accepted. An error limit of zero is none. -/
structure Options where
  includeDirectories : List String := []
  defines : List String := []
  undefines : List String := []
  format : DiagnosticFormat := .human
  warnAsError : Bool := false
  maxIncludeDepth : Nat := 200
  errorLimit : Nat := 0
  deriving Repr

instance : Inhabited Options := ⟨{}⟩

namespace Options

def isUndefinable (name : String) : Bool :=
  isOptionHead name.toList && !name.toList.contains '('

def check (input : OptionsInput) : Except OptionsError Options := do
  let format ← match DiagnosticFormat.ofName? input.format with
    | some format => .ok format
    | none => .error (.unsupportedFormat input.format)
  if input.maxIncludeDepth ≤ 0 then .error (.invalidDepthLimit input.maxIncludeDepth)
  if input.errorLimit < 0 then .error (.invalidErrorLimit input.errorLimit)
  input.defines.forM fun text => (parseDefinition text).map fun _ => ()
  input.undefines.forM fun name =>
    if isUndefinable name then .ok () else .error (.invalidName name)
  return {
    includeDirectories := input.includeDirectories
    defines := input.defines
    undefines := input.undefines
    format
    warnAsError := input.warnAsError
    maxIncludeDepth := input.maxIncludeDepth.toNat
    errorLimit := input.errorLimit.toNat }

def defineLine (text : String) : String :=
  match parseDefinition text with
  | .ok definition => "#define " ++ definition.head ++ " " ++ definition.body ++ "\n"
  | .error _ => ""

/-- The source that the options stand for: a line for each definition, then a line for each name
to undefine. -/
def commandLine (options : Options) : String :=
  String.join (options.defines.map defineLine)
    ++ String.join (options.undefines.map fun name => "#undef " ++ name ++ "\n")

end Options

end Preproc
