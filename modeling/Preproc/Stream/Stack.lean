import Preproc.Engine

/-! # Stacks of streams

A stack of streams is read from the top. When a stream is exhausted the one below goes on, down to
the bottom stream, whose end is the end of the whole. An exhausted stream stays in place until a
read runs past it, so that the stream of the last token remains on top. A stack is a list, top
first; how its streams are read and peeked at is given.
-/

namespace Preproc.Stack

variable {α σ : Type}

/-- Takes the next token; the streams that the read ran past are gone. -/
def read (readOne : α → EStateM Failure σ (Token × α)) :
    List α → EStateM Failure σ (Token × List α)
  | [] => throw (.internal .emptyStack)
  | [bottom] => do
    let (token, bottom) ← readOne bottom
    return (token, [bottom])
  | top :: below => do
    let (token, top) ← readOne top
    if token.isEof then read readOne below else return (token, top :: below)

/-- Shows the next token; no stream is removed. -/
def peek (peekOne : α → EStateM Failure σ (Token × α)) :
    List α → EStateM Failure σ (Token × List α)
  | [] => throw (.internal .emptyStack)
  | [bottom] => do
    let (token, bottom) ← peekOne bottom
    return (token, [bottom])
  | top :: below => do
    let (token, top) ← peekOne top
    if token.isEof then do
      let (token, below) ← peek peekOne below
      return (token, top :: below)
    else return (token, top :: below)

/-- The stack from the stream of the next token on, and above it the streams that are exhausted. -/
def next (peekOne : α → EStateM Failure σ (Token × α)) :
    List α → EStateM Failure σ (List α × List α)
  | [] => throw (.internal .emptyStack)
  | [bottom] => return ([], [bottom])
  | top :: below => do
    let (token, top) ← peekOne top
    if token.isEof then do
      let (exhausted, below) ← next peekOne below
      return (top :: exhausted, below)
    else return ([], top :: below)

/-- Takes newlines as long as they come next. -/
def skipNewlines (readOne peekOne : α → EStateM Failure σ (Token × α)) :
    (fuel : Nat) → List α → EStateM Failure σ (List α)
  | 0, _ => throw .outOfFuel
  | fuel + 1, stack => do
    let (token, stack) ← peek peekOne stack
    if token.kind == .newline then do
      let (_, stack) ← read readOne stack
      skipNewlines readOne peekOne fuel stack
    else return stack

end Preproc.Stack
