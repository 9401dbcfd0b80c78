import Preproc.Session.Basic

/-! # Including files

The operand of an include line is a string literal or a name in angle brackets, written out or
given by a macro. The file that it names is opened unless it is to be read only once and was seen
before, too many files are open, or it cannot be read. A name that cannot be looked up stops the
run.
-/

namespace Preproc.Session

/-- The text of a literal without its quotes. -/
def unquote (lexeme : String) : String :=
  String.ofList lexeme.toList.tail.dropLast

/-- Whether a token is a string literal without an encoding mark. -/
def isPlainString (token : Token) : Bool :=
  token.kind == .string && token.lexeme.toList.head? == some '\x22'

def splitAngle : List Token → Option (List Token × List Token)
  | [] => none
  | token :: rest =>
    if token.isPunctuator ">" then some ([], rest)
    else (splitAngle rest).map fun (inside, after) => (token :: inside, after)

/-- The rest of the line, expanded if it begins with an identifier. -/
def expandedLine (fuel : Nat) : SessionM (List Token) := do
  let tokens ← restOfLine fuel fuel
  match tokens with
  | [] => return []
  | first :: _ =>
    if first.isIdentifier then expandTokens fuel tokens (← rawHead).location else return tokens

def reportExtra (directive : Token) : List Token → SessionM Unit
  | [] => return ()
  | extra :: _ => report extra.location (.extraTokens directive.lexeme)

/-- The reference that the operand of an include line makes, if it makes one. -/
def includeOperand (fuel : Nat) (directive : Token) : SessionM (Option Reference) := do
  let expected : Notice := .expectedInDirective "\"FILENAME\" or <FILENAME>" directive.lexeme
  match ← expandedLine fuel with
  | [] => do
    report (← rawHead).location expected
    return none
  | first :: rest =>
    if isPlainString first then
      reportExtra directive rest
      return some ⟨unquote first.lexeme, false⟩
    else if first.isPunctuator "<" then
      match splitAngle rest with
      | some (inside, after) =>
        reportExtra directive after
        return some ⟨Token.spell inside, true⟩
      | none =>
        let last := (first :: rest).getLastD first
        report last.location (.expectedInDirective "'>'" directive.lexeme)
        return none
    else
      report first.location expected
      return none

def openReference (fuel : Nat) (directive : Token) (reference : Reference) : SessionM Unit := do
  let session ← get
  let includer := match session.files with
    | [] => ""
    | file :: _ => file.path
  match session.includes.resolve reference (some includer) with
  | .error error => throw (.file error)
  | .ok none => report directive.location (.includeNotFound reference.render)
  | .ok (some path) =>
    if session.onceOnly.contains path then return ()
    if session.options.maxIncludeDepth < session.depth then
      report directive.location (.includeTooDeep (toString session.options.maxIncludeDepth))
      return ()
    match session.includes.read path with
    | .error (.undecodable path) => throw (.file (.undecodable path))
    | .error error =>
      report directive.location (.includeUnreadable reference.name error.message)
    | .ok source => do
      let inclusion : Inclusion :=
        { includer, line := directive.location.line, reference, path }
      modify fun session => { session with inclusions := session.inclusions.push inclusion }
      Engine.trace (.including path)
      openFile fuel source path

/-- Includes a file. The line is ended before the file is opened. -/
def handleInclude (fuel : Nat) (directive : Token) : SessionM Ending := do
  match ← includeOperand fuel directive with
  | none => return .unchecked
  | some reference => do
    endLine fuel directive .checked
    openReference fuel directive reference
    return .taken

end Preproc.Session
