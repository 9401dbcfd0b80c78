import Preproc.Condition.Evaluate
import Preproc.Session.Basic

/-! # Conditional directives

The directives that open, continue and close conditionals. Conditions are evaluated only where
their value matters; a condition in error is reported and counts as false.
-/

namespace Preproc.Session

/-- Reports an error of a condition, at its token or else at the beginning of the line. -/
def reportCondition (directive : Token) (tokens : List Token) (error : Condition.Error) :
    SessionM Unit := do
  let place := error.token?.getD (tokens.headD directive)
  report place.location (.invalidCondition directive.lexeme error.message)

/-- The truth of the condition on the rest of the line. -/
def evaluateLine (fuel : Nat) (directive : Token) : SessionM Bool := do
  let tokens ← restOfLine fuel fuel
  let finish ← rawHead
  match Condition.resolveDefined (← table).contains tokens with
  | .error error => do
    reportCondition directive tokens error
    return false
  | .ok resolved => do
    let expanded ← expandTokens fuel resolved finish.location
    match Condition.evaluate expanded with
    | .ok value => return value != 0
    | .error (.error error) => do
      reportCondition directive tokens error
      return false
    | .error .badEscape => throw .notANumber
    | .error .outOfFuel => throw .outOfFuel

def openConditional (directive : Token) (quiet enabled : Bool) : SessionM Unit :=
  modifyFile fun file =>
    { file with conditionals := .opened directive (!quiet) enabled :: file.conditionals }

/-- Changes the innermost open conditional. -/
def setFrame (frame : Conditional) : SessionM Unit :=
  modifyFile fun file => { file with conditionals := frame :: file.conditionals.tail }

/-- The innermost open conditional, or a report that there is none. -/
def currentFrame (fuel : Nat) (directive : Token) : SessionM (Option Conditional) := do
  let frames := match (← get).files with
    | [] => []
    | file :: _ => file.conditionals
  match frames with
  | frame :: _ => return some frame
  | [] => do
    report directive.location (.withoutIf directive.lexeme)
    skipLine fuel
    return none

/-- Opens a conditional on the value of a condition. -/
def handleIf (fuel : Nat) (directive : Token) (quiet : Bool) : SessionM Ending := do
  if quiet then
    skipLine fuel
    openConditional directive quiet false
  else openConditional directive quiet (← evaluateLine fuel directive)
  return .checkedUnless quiet

/-- Opens a conditional on whether a name is defined. -/
def handleIfDefined (fuel : Nat) (directive : Token) (quiet expected : Bool) :
    SessionM Ending := do
  if quiet then
    skipLine fuel
    openConditional directive quiet false
    return .checkedUnless quiet
  match ← expectName fuel directive with
  | none => do
    openConditional directive quiet false
    return .unchecked
  | some name => do
    openConditional directive quiet ((← table).contains name.lexeme == expected)
    return .checkedUnless quiet

/-- Goes on with another condition. -/
def handleElif (fuel : Nat) (directive : Token) : SessionM Ending := do
  match ← currentFrame fuel directive with
  | none => return .unchecked
  | some frame => do
    if frame.sawElse then report directive.location (.afterElse directive.lexeme)
    if frame.wantsCondition then
      setFrame (frame.enterElif (← evaluateLine fuel directive))
    else
      setFrame frame.inactive
      skipLine fuel
    return .checkedUnless (frame.sawElse || !frame.parentActive)

/-- Goes on with the branch that is taken when no other was. -/
def handleElse (fuel : Nat) (directive : Token) : SessionM Ending := do
  match ← currentFrame fuel directive with
  | none => return .unchecked
  | some frame => do
    if frame.sawElse then
      report directive.location (.afterElse directive.lexeme)
      setFrame frame.inactive
    else setFrame frame.enterElse
    return .checkedUnless (!frame.parentActive)

/-- Closes a conditional. -/
def handleEndif (fuel : Nat) (directive : Token) : SessionM Ending := do
  match ← currentFrame fuel directive with
  | none => return .unchecked
  | some frame => do
    modifyFile fun file => { file with conditionals := file.conditionals.tail }
    return .checkedUnless (!frame.parentActive)

end Preproc.Session
