import Preproc.Session.Basic

/-! # Defining and undefining macros

A definition line gives a name, an optional list of parameters and a body. The builtin macros can
be neither redefined nor undefined. Redefining a macro differently is allowed and reported.
-/

namespace Preproc.Session

/-- Takes the name of a parameter and the ellipsis after it, or reports that there is none. -/
def takeParameter (fuel : Nat) (known : List Parameter) : SessionM (Option Parameter) := do
  let token ← rawHead
  if !token.isIdentifier && !token.isPunctuator "..." then
    report token.location (.expectedInParameters "parameter name")
    return none
  if token.isIdentifier then
    let _ ← takeRaw fuel
  let variadic := (← rawHead).isPunctuator "..."
  if variadic then
    let _ ← takeRaw fuel
  let name := if token.isIdentifier then token.lexeme else variadicName
  if known.any (·.name == name) then report token.location (.duplicateParameter name)
  return some { name, location := token.location, variadic }

def takeParameters (fuel : Nat) :
    (bound : Nat) → List Parameter → SessionM (Option (List Parameter))
  | 0, _ => throw .outOfFuel
  | bound + 1, known => do
    match ← takeParameter fuel known with
    | none => return none
    | some parameter => do
      let known := known ++ [parameter]
      let separator ← rawHead
      if separator.isPunctuator ")" then
        let _ ← takeRaw fuel
        return some known
      else if separator.isPunctuator "," then
        let _ ← takeRaw fuel
        takeParameters fuel bound known
      else
        report separator.location (.expectedInParameters "',' or ')'")
        return none

/-- Only the last parameter stays variadic; any other that is declared so is reported. -/
def settleVariadics : List Parameter → SessionM (List Parameter)
  | [] => return []
  | [last] => return [last]
  | parameter :: rest => do
    if parameter.variadic then
      report parameter.location (.variadicNotLast parameter.name)
    let rest ← settleVariadics rest
    return { parameter with variadic := false } :: rest

def parameterList (fuel : Nat) : SessionM (Option (List Parameter)) := do
  if (← rawHead).isPunctuator ")" then
    let _ ← takeRaw fuel
    return some []
  match ← takeParameters fuel fuel [] with
  | none => return none
  | some parameters => return some (← settleVariadics parameters)

/-- Defines a macro from its name, its parameters and the rest of the line. -/
def defineFrom (fuel : Nat) (name : Token) (parameters : Option (List Parameter)) :
    SessionM Unit := do
  let body ← restOfLine fuel fuel
  match (← table).lookup name.lexeme with
  | none => Engine.define (← Engine.build name parameters body (← rawHead).location)
  | some previous =>
    if previous.isBuiltin then report name.location (.builtinRedefinition name.lexeme)
    else do
      let definition ← Engine.build name parameters body (← rawHead).location
      if !previous.equivalent definition then
        report name.location (.redefinition name.lexeme)
        match previous.nameToken with
        | some token => report token.location (.seePreviousDefinition name.lexeme)
        | none => pure ()
      Engine.define definition

def handleDefine (fuel : Nat) (directive : Token) : SessionM Ending := do
  match ← expectName fuel directive with
  | none => return .unchecked
  | some name => do
    let next ← rawHead
    if next.isPunctuator "(" && !next.leadingSpace then
      let _ ← takeRaw fuel
      match ← parameterList fuel with
      | none => return .unchecked
      | some parameters =>
        defineFrom fuel name (some parameters)
        return .checked
    else
      defineFrom fuel name none
      return .checked

def handleUndefine (fuel : Nat) (directive : Token) : SessionM Ending := do
  match ← expectName fuel directive with
  | none => return .unchecked
  | some name => do
    match (← table).lookup name.lexeme with
    | none => Engine.undefine name.lexeme
    | some previous =>
      if previous.isBuiltin then report name.location (.builtinUndefinition name.lexeme)
      else Engine.undefine name.lexeme
    return .checked

end Preproc.Session
