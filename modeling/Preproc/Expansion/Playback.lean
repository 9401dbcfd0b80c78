import Preproc.Index
import Preproc.Stream.Basic

/-! # Playing back a macro

Playback runs through the ops of a macro. Each op opens a stream; when that stream is exhausted
the next op follows. A paste takes the last token before it and the first token after it, scans
their joined text again, and puts the result in front of what follows.
-/

namespace Preproc.Playback

open TokenStream (Mover readStack peekStack readWith peekWith expandWith)

/-- Goes on with a value, or stops with a broken promise. -/
def require {α : Type} : Except Fault α → Engine α
  | .ok value => return value
  | .error fault => Engine.fault fault

def item {α : Type} (items : List α) (index : Int) : Engine α :=
  match Index.get? items index with
  | some value => return value
  | none => throw .outOfRange

/-- The span of the argument of a parameter. The variadic parameter has all remaining arguments
with the commas between them, and an empty span if there are none. -/
def argumentSpan (playback : Playback TokenStream) (index : Int) : Engine (Int × Int) := do
  let definition := playback.entry.definition
  let spans := playback.arguments.spans
  if definition.isVariadic && index + 1 == definition.parameterCount then
    let stop := match spans.getLast? with
      | some span => span.2
      | none => 0
    match Index.get? spans index with
    | some span => return (span.1, stop)
    | none => return (stop, stop)
  else if spans.length ≤ index then Engine.fault (.noArgument definition.name index)
  else item spans index

def argumentTokens (playback : Playback TokenStream) (index : Int) : Engine (List Token) := do
  let (first, last) ← playback.argumentSpan index
  return Index.slice playback.arguments.tokens first last

def argumentQueue (playback : Playback TokenStream) (index : Int) (busy : List Macro.Entry) :
    Engine TokenQueue := do
  let (first, last) ← playback.argumentSpan index
  require (TokenQueue.slice playback.arguments.tokens first (some last)
    (some playback.nameToken.location) busy)

def bodyToken (playback : Playback TokenStream) (index : Int) : Engine Token :=
  item playback.entry.definition.body index

/-- The token from which the whole expansion began. -/
def originToken (playback : Playback TokenStream) : Engine Token :=
  match playback.origin with
  | some token => return token
  | none => Engine.fault (.noOrigin playback.entry.name)

/-- The stream of a single token of made-up text, which stands where another token stands. -/
def synthesize (kind : TokenKind) (text : String) (place : Token) : Engine TokenStream := do
  Engine.allocate text
  let token : Token :=
    { kind, lexeme := text, location := place.location, leadingSpace := place.leadingSpace }
  return .queue (.ofList [token] (some place.location))

def openOp (move : Mover) (playback : Playback TokenStream) : Op → Engine TokenStream
  | .span first last => do
    let definition := playback.entry.definition
    let queue ← require (TokenQueue.slice definition.body first (some last)
      (some definition.endLocation) [])
    return .queue queue
  | .unexpanded _ parameter => do
    return .queue (← playback.argumentQueue parameter [])
  | .expanded _ parameter => do
    let queue ← playback.argumentQueue parameter playback.around
    expandWith move (.queue queue) playback.origin
  | .stringized index parameter => do
    let text := Token.stringize (← playback.argumentTokens parameter)
    synthesize .string text (← playback.bodyToken index)
  | .line _ _ => do
    let origin ← playback.originToken
    synthesize .number (toString origin.location.line) playback.nameToken
  | .file _ _ => do
    let origin ← playback.originToken
    synthesize .string (quoteText origin.location.file) playback.nameToken
  | .paste _ _ => Engine.fault .startsAtPaste

/-- Pastes operands together: their joined text is scanned again at the place of the paste. Text
that gives no token leaves the operands as they are. -/
def pasteTokens (operands : List Token) (mark : Token) : Engine (List Token) := do
  let text := String.join (operands.map (·.lexeme))
  if text.isEmpty then return []
  Engine.allocate text
  let pasted ← Engine.rescan text mark.location
  if pasted.length != 1 then Engine.report mark.location (.invalidPaste text)
  if pasted.isEmpty then return operands.map (·.relocated mark.location)
  return pasted

def spaceFirst (leadingSpace : Bool) : List Token → List Token
  | [] => []
  | first :: rest => first.withLeadingSpace leadingSpace :: rest

/-- Where playback stands after finding a token: the token, the ops still to come, and the streams
of the op being played. -/
structure Found where
  token : Token
  pending : List Op
  operands : List TokenStream

/-- Looks whether the streams of the op being played are exhausted. A token that they still have
must not follow an end. -/
def exhausted (move : Mover) (token : Token) (operands : List TokenStream) :
    Engine (Bool × List TokenStream) := do
  let (next, operands) ← peekStack move operands
  if !next.isEof && token.isEof then Engine.fault .lostToken
  return (next.isEof, operands)

/-- Opens an op and pastes its first token to what is on the left, if anything is. -/
def join (move : Mover) (playback : Playback TokenStream) (left : Option Token) (mark : Token)
    (op : Op) : Engine (List TokenStream) := do
  let operand ← playback.openOp move op
  let (right, operands) ← readStack move [operand]
  let pasted ← pasteTokens (if right.isEof then left.toList else left.toList ++ [right]) mark
  let pasted := spaceFirst (left.getD right).leadingSpace pasted
  return .queue (.ofList pasted (some mark.location)) :: operands

/-- Opens the ops that have to be opened before a token can be handed out: as long as the op being
played is exhausted, the next one may paste to its last token. `own` tells whether the token comes
from the op being played. -/
def carry (move : Mover) (playback : Playback TokenStream) :
    (token : Token) → (own : Bool) → (pending : List Op) → (operands : List TokenStream) →
      Engine Found
  | token, _, [], operands => do
    let (_, operands) ← exhausted move token operands
    return { token, pending := [], operands }
  | token, _, [.paste index second], operands => do
    let (done, operands) ← exhausted move token operands
    if !done then return { token, pending := [.paste index second], operands }
    let _ ← playback.bodyToken index
    throw .outOfRange
  | token, own, .paste index second :: op :: pending, operands => do
    let (done, operands) ← exhausted move token operands
    if !done then return { token, pending := .paste index second :: op :: pending, operands }
    let mark ← playback.bodyToken index
    let left := if own && !token.isEof then some token else none
    let operands ← playback.join move left mark op
    if left.isSome || token.isEof then do
      let (token, operands) ← readStack move operands
      playback.carry move token true pending operands
    else playback.carry move token false pending operands
  | token, _, op :: pending, operands => do
    let (done, operands) ← exhausted move token operands
    if !done then return { token, pending := op :: pending, operands }
    let operand ← playback.openOp move op
    if token.isEof then do
      let (token, operands) ← readStack move [operand]
      playback.carry move token true pending operands
    else playback.carry move token false pending [operand]

/-- Finds the next token and holds it. -/
def fetch (move : Mover) (playback : Playback TokenStream) : Engine (Playback TokenStream) := do
  if playback.closed then return { playback with lookahead := playback.finish }
  let (token, operands) ← readStack move playback.operands
  let found ← playback.carry move token true playback.pending operands
  return { playback with
    lookahead := found.token
    pending := found.pending
    operands := found.operands }

def prime (move : Mover) (playback : Playback TokenStream) (around : List Macro.Entry) :
    Engine (Playback TokenStream) := do
  Engine.trace (.expanding playback.entry.name (around.map (·.name)))
  let playback := { playback with around }
  match playback.entry.definition.ops with
  | [] => throw .outOfRange
  | op :: pending => do
    let operand ← playback.openOp move op
    fetch move { playback with pending, operands := operand :: playback.operands }

def advance (move : Mover) (playback : Playback TokenStream) : Engine (Playback TokenStream) :=
  if playback.lookahead.isEof then return playback else playback.fetch move

end Preproc.Playback
