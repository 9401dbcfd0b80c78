import Preproc.Session.Include
import Preproc.Text.Numeral

/-! # Renumbering lines

A line directive gives the following lines new numbers and may give their file a new name.
-/

namespace Preproc.Session

def renumber (line : Int) (file : Option String) : SessionM Unit :=
  modifyFile fun input => { input with stream := input.stream.renumber line file }

def isDigits (text : List Char) : Bool :=
  !text.isEmpty && text.all Text.isDigit

/-- Takes the name of the file on a line directive, if there is one, and renumbers. -/
def renumberFrom (directive : Token) (line : Nat) : List Token → SessionM Ending
  | [] => do
    renumber line none
    return .checked
  | name :: extra =>
    if isPlainString name then do
      reportExtra directive extra
      renumber line (some (unquote name.lexeme))
      return .checked
    else do
      report name.location (.expectedInDirective "file name" directive.lexeme)
      return .unchecked

/-- Gives the following lines new numbers. -/
def handleLine (fuel : Nat) (directive : Token) : SessionM Ending := do
  match ← expandedLine fuel with
  | [] => do
    report directive.location (.invalidLineNumber "")
    return .unchecked
  | number :: rest =>
    if number.kind == .number && isDigits number.lexeme.toList then
      match Text.decimal? number.lexeme.toList with
      | none => throw .notANumber
      | some 0 => do
        report number.location (.invalidLineNumber number.lexeme)
        return .unchecked
      | some line => renumberFrom directive line rest
    else do
      report number.location (.invalidLineNumber number.lexeme)
      return .unchecked

end Preproc.Session
