import Preproc.Stream.Queue
import Preproc.Stream.Scanner
import Preproc.Stream.Stack

/-! # Streams

A stream is a source of tokens with one token of lookahead: a queue, a scanner, the playback of a
macro, or the expansion of another stream. Playback keeps a stack of streams for the op that is
being played; an expansion keeps a stack whose bottom is the stream that it expands, with the
playbacks that it has begun above it.

Two moves change a stream. To *settle* it is to make sure of its next token, which for an
expansion means to begin the macro invocations met there. To *advance* it is to take that token.
-/

namespace Preproc

/-- The arguments of a call: the tokens between its parentheses, and the span of each argument. -/
structure Arguments where
  tokens : List Token := []
  spans : List (Int × Int) := []
  deriving DecidableEq, Repr

/-- One invocation of a macro, played back op by op over streams of a type. -/
structure Playback (σ : Type) where
  entry : Macro.Entry
  nameToken : Token
  /-- The token from which the whole expansion began. -/
  origin : Option Token
  arguments : Arguments := {}
  /-- Whether the name came from the stream that is being expanded. -/
  outermost : Bool := false
  /-- The macros that are busy around the invocation, innermost first. -/
  around : List Macro.Entry := []
  /-- The ops after the one being played. -/
  pending : List Op := []
  /-- The streams of the op being played, top first. -/
  operands : List σ := []
  lookahead : Token
  closed : Bool := false

/-- The expansion of the stream at the bottom of a stack. -/
structure Expansion (σ : Type) where
  /-- The origin that the expansion was given. -/
  inherited : Option Token
  origin : Option Token
  /-- The next token, if it begins no invocation. -/
  lookahead : Token
  leftAlone : Bool := false
  /-- The streams being read, top first; the bottom one is expanded. -/
  sources : List σ

inductive TokenStream where
  | queue (queue : TokenQueue)
  | scanner (scanner : Scanner)
  | playback (playback : Playback TokenStream)
  | expansion (expansion : Expansion TokenStream)

namespace Playback

/-- The macros that are busy for the tokens of the playback, innermost first. -/
def chain (playback : Playback TokenStream) : List Macro.Entry :=
  playback.entry :: playback.around

def finish (playback : Playback TokenStream) : Token :=
  .endOfInput playback.nameToken.location

def close (playback : Playback TokenStream) : Playback TokenStream :=
  { playback with
    closed := true
    operands := []
    pending := []
    lookahead := playback.finish }

end Playback

namespace TokenStream

def head : TokenStream → Token
  | queue tokens => tokens.head
  | scanner source => source.head
  | playback invocation => invocation.lookahead
  | expansion nested => nested.lookahead

def busy : TokenStream → List Macro.Entry
  | queue tokens => tokens.busy
  | scanner _ => []
  | playback invocation => invocation.chain
  | expansion _ => []

/-- The stream with nothing left, apart from an expansion. -/
def closeSource : TokenStream → TokenStream
  | queue tokens => queue tokens.close
  | scanner source => scanner source.close
  | playback invocation => playback invocation.close
  | expansion nested => expansion nested

/-- The stream with nothing left. An expansion closes its sources with it; none of them is an
expansion itself. -/
def close : TokenStream → TokenStream
  | expansion nested =>
    expansion
      { nested with
        sources := nested.sources.map closeSource
        lookahead := .endOfInput nested.lookahead.location }
  | stream => stream.closeSource

def renumberBottom (first : Int) (file : Option String) : List TokenStream → List TokenStream
  | [] => []
  | [scanner source] => [scanner (source.renumber first file)]
  | stream :: below => stream :: renumberBottom first file below

/-- Numbers the line after the last token taken `first`, for a scanner or for the scanner that is
being expanded. -/
def renumber (first : Int) (file : Option String) : TokenStream → TokenStream
  | scanner source => scanner (source.renumber first file)
  | expansion nested =>
    expansion { nested with sources := renumberBottom first file nested.sources }
  | stream => stream

inductive Move where
  | settle
  | advance

abbrev Mover := Move → TokenStream → Engine TokenStream

def peekWith (move : Mover) (stream : TokenStream) : Engine (Token × TokenStream) := do
  let stream ← move .settle stream
  return (stream.head, stream)

def readWith (move : Mover) (stream : TokenStream) : Engine (Token × TokenStream) := do
  let stream ← move .settle stream
  let token := stream.head
  let stream ← move .advance stream
  return (token, stream)

def readStack (move : Mover) : List TokenStream → Engine (Token × List TokenStream) :=
  Stack.read (readWith move)

def peekStack (move : Mover) : List TokenStream → Engine (Token × List TokenStream) :=
  Stack.peek (peekWith move)

/-- The expansion of a stream, with the origin of the invocations in it if one is given. -/
def expandWith (move : Mover) (base : TokenStream) (origin : Option Token) : Engine TokenStream :=
    do
  let (lookahead, sources) ← readStack move [base]
  return .expansion { inherited := origin, origin, lookahead, sources }

end TokenStream

end Preproc
