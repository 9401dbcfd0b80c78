import Preproc.Session.Branch
import Preproc.Session.Define
import Preproc.Session.Line

/-! # Directives

A directive line is handled as a whole: its name decides what is done with the rest of the line.
While lines are skipped, only the directives of conditionals count.
-/

namespace Preproc

inductive Directive where
  | define
  | undefine
  | include
  | ifTrue
  | ifDefined
  | ifNotDefined
  | elseIf
  | otherwise
  | endIf
  | userError
  | userWarning
  | line
  | pragma
  deriving DecidableEq, Repr

namespace Directive

def ofName? : String → Option Directive
  | "define" => some .define
  | "undef" => some .undefine
  | "include" => some .include
  | "if" => some .ifTrue
  | "ifdef" => some .ifDefined
  | "ifndef" => some .ifNotDefined
  | "elif" => some .elseIf
  | "else" => some .otherwise
  | "endif" => some .endIf
  | "error" => some .userError
  | "warning" => some .userWarning
  | "line" => some .line
  | "pragma" => some .pragma
  | _ => none

/-- Whether the directive counts while lines are skipped. -/
def ofConditional : Directive → Bool
  | .ifTrue | .ifDefined | .ifNotDefined | .elseIf | .otherwise | .endIf => true
  | _ => false

end Directive

namespace Session

/-- Reads a file only once, or ignores a pragma that is not known. -/
def handlePragma (fuel : Nat) : SessionM Ending := do
  let next ← rawHead
  if next.isIdentifier && next.lexeme == "once" then
    let _ ← takeRaw fuel
    modify fun session =>
      match session.files with
      | [] => session
      | file :: _ => { session with onceOnly := file.path :: session.onceOnly }
  else skipLine fuel
  return .checked

/-- Reports the rest of the line. -/
def handleUserNotice (fuel : Nat) (directive : Token) (notice : String → Notice) :
    SessionM Ending := do
  let tokens ← restOfLine fuel fuel
  report directive.location (notice (Token.spell tokens))
  return .checked

def handle (fuel : Nat) (directive : Token) (quiet : Bool) : Directive → SessionM Ending
  | .define => handleDefine fuel directive
  | .undefine => handleUndefine fuel directive
  | .include => handleInclude fuel directive
  | .ifTrue => handleIf fuel directive quiet
  | .ifDefined => handleIfDefined fuel directive quiet true
  | .ifNotDefined => handleIfDefined fuel directive quiet false
  | .elseIf => handleElif fuel directive
  | .otherwise => handleElse fuel directive
  | .endIf => handleEndif fuel directive
  | .userError => handleUserNotice fuel directive .userError
  | .userWarning => handleUserNotice fuel directive .userWarning
  | .line => handleLine fuel directive
  | .pragma => handlePragma fuel

/-- Whether the lines of the file being read are skipped. -/
def isSkipping : SessionM Bool := do
  match (← get).files with
  | [] => return false
  | file :: _ => return file.isSkipping

/-- Handles a directive line from its `#` on. A line with nothing after the `#` has no effect. -/
def handleDirective (fuel : Nat) : SessionM Unit := do
  let _ ← takeRaw fuel
  let name ← rawHead
  if name.endsLine then return ()
  let quiet ← isSkipping
  if !name.isIdentifier then
    if !quiet then report name.location .expectedDirectiveName
    skipLine fuel
  else match Directive.ofName? name.lexeme with
    | none => do
      if !quiet then report name.location (.unknownDirective name.lexeme)
      skipLine fuel
    | some directive =>
      if quiet && !directive.ofConditional then skipLine fuel
      else do
        let _ ← takeRaw fuel
        let ending ← handle fuel name quiet directive
        endLine fuel name ending

end Session

end Preproc
