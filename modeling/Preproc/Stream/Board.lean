import Preproc.Expansion.Settle

/-! # A board of streams

A board holds named streams and one stack of them. A stream remembers the stream that it was
pushed onto, also after it was taken off again, and the stack is what these links lead through
from its top on. What an action did before it failed remains on the board.
-/

namespace Preproc

structure Board.Slot where
  name : String
  stream : TokenStream
  /-- The slot of the stream that it was last pushed onto. -/
  below : Option Nat := none

/-- Named streams and a stack of them. -/
structure Board where
  context : Context := {}
  slots : Array Board.Slot := #[]
  top : Option Nat := none

abbrev BoardM := EStateM Failure Board

namespace Board

def engine {α : Type} (action : Engine α) : BoardM α := fun board =>
  match action board.context with
  | .ok value context => .ok value { board with context }
  | .error failure context => .error failure { board with context }

def add (name : String) (stream : TokenStream) : BoardM Unit :=
  modify fun board => { board with slots := board.slots.push { name, stream } }

def slotOf? (board : Board) (name : String) : Option Nat :=
  (board.slots.toList.reverse.findIdx? (·.name == name)).map (board.slots.size - 1 - ·)

def streamAt (slot : Nat) : BoardM TokenStream := do
  match (← get).slots[slot]? with
  | some found => return found.stream
  | none => throw (.internal .emptyStack)

def nameAt (slot : Nat) : BoardM String := do
  match (← get).slots[slot]? with
  | some found => return found.name
  | none => throw (.internal .emptyStack)

def setStream (slot : Nat) (stream : TokenStream) : BoardM Unit :=
  modify fun board =>
    { board with slots := board.slots.modify slot fun found => { found with stream } }

/-- The stream after a failure: a scanner that a flaw has stopped gives nothing more. -/
def afterFailure : TokenStream → TokenStream
  | .scanner source => .scanner source.stopped
  | stream => stream

/-- Takes the next token of a stream. -/
def read (fuel slot : Nat) : BoardM (Token × Nat) := do
  let stream ← streamAt slot
  setStream slot (afterFailure stream)
  let (token, stream) ← engine (stream.read fuel)
  setStream slot stream
  return (token, slot)

/-- Shows the next token of a stream. -/
def peek (fuel slot : Nat) : BoardM (Token × Nat) := do
  let (token, stream) ← engine ((← streamAt slot).peek fuel)
  setStream slot stream
  return (token, slot)

/-- The slots that the links lead through, without going round in circles. -/
def chain (board : Board) : (bound : Nat) → Option Nat → List Nat
  | 0, _ | _, none => []
  | bound + 1, some slot =>
    slot :: chain board bound (board.slots[slot]?.bind (·.below))

/-- The slots of the stack, top first. -/
def stack : BoardM (List Nat) := do
  let board ← get
  return board.chain board.slots.size board.top

/-- Makes a slot the top of the stack. -/
def setTop (top : Option Nat) : BoardM Unit :=
  modify fun board => { board with top }

def topSlot : BoardM Nat := do
  match (← get).top with
  | some slot => return slot
  | none => throw (.internal .emptyStack)

/-- Puts a stream on top of the stack. -/
def push (slot : Nat) : BoardM Unit :=
  modify fun board =>
    { board with
      slots := board.slots.modify slot fun found => { found with below := board.top }
      top := some slot }

/-- Takes the top off the stack. -/
def pop : BoardM Nat := do
  let slot ← topSlot
  setTop ((← get).slots[slot]?.bind (·.below))
  return slot

/-- Takes the next token of a stream that is the top of the stack by then. -/
def readOnTop (fuel slot : Nat) : BoardM (Token × Nat) := do
  setTop (some slot)
  read fuel slot

def readStack (fuel : Nat) : BoardM Token := do
  return (← Stack.read (readOnTop fuel) (← stack)).1

def peekStack (fuel : Nat) : BoardM Token := do
  return (← Stack.peek (peek fuel) (← stack)).1

def nextSlot (fuel : Nat) : BoardM Nat := do
  match (← Stack.next (peek fuel) (← stack)).2 with
  | slot :: _ => return slot
  | [] => throw (.internal .emptyStack)

/-- Takes newlines as long as they come next on the stack. -/
def skipNewlines (fuel : Nat) : BoardM Unit := do
  let _ ← Stack.skipNewlines (readOnTop fuel) (peek fuel) fuel (← stack)

def fileOf : TokenStream → Except Failure String
  | .scanner source => .ok source.file
  | _ => .error .notAScanner

def renumber (slot : Nat) (first : Int) (file : Option String) : BoardM Unit := do
  let stream ← streamAt slot
  match fileOf stream with
  | .ok _ => setStream slot (stream.renumber first file)
  | .error failure => throw failure

end Board

end Preproc
