import Preproc.Session.Directive

/-! # Reading a session

Tokens are read from the file on top of the stack. A file that has ended is left, with a report
for each conditional that it leaves open. When the limit on errors is reached all files are
closed.
-/

namespace Preproc.Session

def closeFiles (session : Session) : Session :=
  let finish := match session.files.getLast? with
    | some file => file.stream.close.head
    | none => session.finish
  { session with files := [], depth := 0, finish }

def close : SessionM Unit :=
  modify closeFiles

/-- Reports the conditionals that a file leaves open, innermost first. -/
def reportOpen (finish : Token) : List Conditional → SessionM Unit
  | [] => return ()
  | frame :: rest => do
    report finish.location .endOfFileInConditional
    report frame.directive.location (.seeDirective frame.directive.lexeme)
    reportOpen finish rest

def leaveFile : SessionM Unit := do
  match (← get).files with
  | [] => return ()
  | file :: rest => do
    let finish := file.stream.head
    reportOpen finish file.conditionals
    modify fun session =>
      { session with
        files := rest
        depth := session.depth - 1
        finish := if rest.isEmpty then finish else session.finish }

/-- Stops the session if the limit on errors is reached for the first time. -/
def checkErrorLimit : SessionM Unit := do
  let session ← get
  let limit := session.options.errorLimit
  if limit != 0 && !session.stopped && limit ≤ (← getThe Context).sink.errorCount then
    modify fun session => { session with stopped := true }
    if !session.files.isEmpty then report (← rawHead).location .tooManyErrors
    close

/-- One step of reading: a token, or nothing if there is more to do first. -/
def step (fuel : Nat) : SessionM (Option Token) := do
  checkErrorLimit
  match (← get).files with
  | [] => return some (← get).finish
  | file :: _ => do
    let token := file.stream.head
    if token.isEof then
      leaveFile
      return none
    else if token.kind == .directive then
      handleDirective fuel
      return none
    else if token.kind == .newline || file.isSkipping then
      moveFile fuel .advance
      return none
    else do
      moveFile fuel .settle
      let token ← rawHead
      if token.endsLine || token.kind == .directive then return none
      return some (← takeRaw fuel)

def readFresh (fuel : Nat) : (bound : Nat) → SessionM Token
  | 0 => throw .outOfFuel
  | bound + 1 => do
    match ← step fuel with
    | some token => return token
    | none => readFresh fuel bound

def read (fuel : Nat) : SessionM Token := do
  match (← get).peeked with
  | some token => do
    modify fun session => { session with peeked := none }
    return token
  | none => readFresh fuel fuel

def peek (fuel : Nat) : SessionM Token := do
  match (← get).peeked with
  | some token => return token
  | none => do
    let token ← readFresh fuel fuel
    modify fun session => { session with peeked := some token }
    return token

/-- Takes tokens up to the end of the session; the end is the last of them. -/
def readAll (fuel : Nat) : (bound : Nat) → SessionM (List Token)
  | 0 => throw .outOfFuel
  | bound + 1 => do
    let token ← read fuel
    if token.isEof then return [token]
    let rest ← readAll fuel bound
    return token :: rest

/-- The name of the source that the options stand for. -/
def commandLineFile : String := "<command-line>"

/-- Opens a source on top of the others. Before the first one, what the options define is read. -/
def push (fuel : Nat) (source file : String) : SessionM Unit := do
  openFile fuel source file
  let session ← get
  if !session.started then
    modify fun session => { session with started := true }
    let commandLine := session.options.commandLine
    if !commandLine.isEmpty then openFile fuel commandLine commandLineFile

end Preproc.Session
