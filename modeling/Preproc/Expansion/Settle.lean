import Preproc.Expansion.Arguments
import Preproc.Expansion.Playback

/-! # Beginning macro invocations

An expansion is settled by beginning the invocations that its next token calls for, until the next
token is one that stays. A name stays if it names no macro, if its macro is busy where the name
comes from, or if it was left alone before; the name of a function-like macro stays if no
parenthesis follows.
-/

namespace Preproc

open TokenStream (Mover readStack peekStack readWith peekWith expandWith)

/-- Whether a definition is among those that are busy. -/
def isBusy (entry : Macro.Entry) (busy : List Macro.Entry) : Bool :=
  busy.any fun other => other.serial == entry.serial

namespace Expansion

def busyOnTop : List TokenStream → Engine (List Macro.Entry)
  | [] => Engine.fault .emptyStack
  | top :: _ => return top.busy

/-- Whether a stream is an outermost invocation that has nothing left. -/
def isFinishedOutermost : TokenStream → Bool
  | .playback invocation => invocation.outermost && invocation.lookahead.isEof
  | _ => false

/-- A finished invocation that began at the stream being expanded no longer guards what comes
after its last token. -/
def retireFinished : List TokenStream → List TokenStream
  | [] => []
  | top :: below => if isFinishedOutermost top then below else top :: below

def begin (move : Mover) (expansion : Expansion TokenStream) (invocation : Playback TokenStream)
    (around : List Macro.Entry) (sources : List TokenStream) : Engine (Expansion TokenStream) := do
  let invocation ← invocation.prime move around
  let (lookahead, sources) ← readStack move (.playback invocation :: sources)
  return { expansion with lookahead, sources }

/-- Puts tokens back on top of a stack. -/
def replay (tokens : List Token) (sources : List TokenStream) : List TokenStream :=
  .queue (.ofList tokens none) :: sources

/-- What one attempt to begin an invocation gives. -/
inductive Attempt where
  | stays (expansion : Expansion TokenStream)
  /-- There is a new next token to look at. -/
  | again (expansion : Expansion TokenStream)

/-- Attempts a call of a function-like macro whose name is the next token. -/
def attemptCall (move : Mover) (fuel : Nat) (expansion : Expansion TokenStream)
    (entry : Macro.Entry) (outermost : Bool) : Engine Attempt := do
  let definition := entry.definition
  let name := expansion.lookahead
  let sources ← Stack.skipNewlines (readWith move) (peekWith move) fuel expansion.sources
  let (next, sources) ← peekStack move sources
  if !next.isPunctuator "(" then
    Engine.trace (.notExpanding definition.name)
    return .stays { expansion with sources }
  let (parenthesis, sources) ← readStack move sources
  let (collected, sources) ← collectArguments move fuel {} sources
  match collected with
  | .unclosed tokens => do
    Engine.report name.location (.unterminatedCall definition.name)
    return .stays
      { expansion with leftAlone := true, sources := replay (parenthesis :: tokens) sources }
  | .closed arguments => do
    let arguments := definition.adjustArguments arguments
    let count := arguments.spans.length
    if definition.acceptsCount count then
      let around ← busyOnTop sources
      let invocation : Playback TokenStream :=
        { entry, nameToken := name, origin := expansion.origin, arguments, outermost,
          lookahead := .endOfInput name.location }
      return .again (← begin move expansion invocation around sources)
    else
      Engine.report name.location (.wrongArgumentCount definition.name
        (toString definition.requiredArguments) (toString count))
      let (lookahead, sources) ← readStack move sources
      return .again { expansion with lookahead, sources }

def attempt (move : Mover) (fuel : Nat) (expansion : Expansion TokenStream) : Engine Attempt := do
  let name := expansion.lookahead
  if !name.isIdentifier || expansion.leftAlone then return .stays expansion
  match ← Engine.entry? name.lexeme with
  | none => return .stays expansion
  | some entry => do
    if isBusy entry (← busyOnTop expansion.sources) then return .stays expansion
    let outermost := expansion.sources.length == 1
    let expansion :=
      if outermost && expansion.inherited.isNone then { expansion with origin := some name }
      else expansion
    if entry.definition.isFunctionLike then attemptCall move fuel expansion entry outermost
    else
      let sources := retireFinished expansion.sources
      let around ← busyOnTop sources
      let invocation : Playback TokenStream :=
        { entry, nameToken := name, origin := expansion.origin, outermost,
          lookahead := .endOfInput name.location }
      return .again (← begin move expansion invocation around sources)

/-- Begins invocations until the next token stays. -/
def settle (move : Mover) : (fuel : Nat) → Expansion TokenStream → Engine (Expansion TokenStream)
  | 0, _ => throw .outOfFuel
  | fuel + 1, expansion => do
    match ← expansion.attempt move fuel with
    | .stays expansion => return expansion
    | .again expansion => settle move fuel expansion

def advance (move : Mover) (expansion : Expansion TokenStream) :
    Engine (Expansion TokenStream) := do
  if expansion.lookahead.isEof then return expansion
  let (lookahead, sources) ← readStack move expansion.sources
  return { expansion with lookahead, sources, leftAlone := false }

end Expansion

namespace TokenStream

def moveWith (move : Mover) (fuel : Nat) : Mover
  | .settle, .expansion nested => do return .expansion (← nested.settle move fuel)
  | .settle, stream => return stream
  | .advance, .queue tokens => return .queue tokens.advance
  | .advance, .scanner source => do return .scanner (← source.advance)
  | .advance, .playback invocation => do return .playback (← invocation.advance move)
  | .advance, .expansion nested => do return .expansion (← nested.advance move)

/-- Moves a stream in a bounded number of steps. Expansion can go on forever, so the bound is
real: where it is reached the answer is a failure of its own. -/
def move : (fuel : Nat) → Mover
  | 0, _, _ => throw .outOfFuel
  | fuel + 1, kind, stream => moveWith (move fuel) fuel kind stream

def read (fuel : Nat) : TokenStream → Engine (Token × TokenStream) :=
  readWith (move fuel)

def peek (fuel : Nat) : TokenStream → Engine (Token × TokenStream) :=
  peekWith (move fuel)

/-- Takes the next token as it is, without beginning an invocation at it. -/
def readRaw (fuel : Nat) (stream : TokenStream) : Engine (Token × TokenStream) := do
  let token := stream.head
  return (token, ← move fuel .advance stream)

/-- The expansion of a stream, with the origin of the invocations in it if one is given. -/
def expand (fuel : Nat) : TokenStream → Option Token → Engine TokenStream :=
  expandWith (move fuel)

/-- The macros that are busy for the stream on top of an expansion. -/
def busyInside : TokenStream → List Macro.Entry
  | .expansion nested => (nested.sources.head?.map busy).getD []
  | _ => []

def origin? : TokenStream → Option Token
  | .expansion nested => nested.origin
  | _ => none

def drain (fuel : Nat) : (bound : Nat) → TokenStream → Engine (List Token × TokenStream)
  | 0, _ => throw .outOfFuel
  | bound + 1, stream => do
    let (token, stream) ← read fuel stream
    if token.isEof then return ([], stream)
    let (rest, stream) ← drain fuel bound stream
    return (token :: rest, stream)

end TokenStream

def expandTokens (fuel : Nat) (tokens : List Token) (finish : Location) :
    Engine (List Token) := do
  let stream ← TokenStream.expand fuel (.queue (.ofList tokens (some finish))) none
  return (← stream.drain fuel fuel).1

end Preproc
