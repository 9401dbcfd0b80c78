import Preproc.Stream.Basic

/-! # Collecting the arguments of a call

After the opening parenthesis of a call, tokens are collected up to the parenthesis that closes
it. Commas outside inner parentheses separate arguments. Newlines vanish. The end of the input and
the beginning of a directive leave the call unclosed.
-/

namespace Preproc

open TokenStream (Mover readStack peekStack readWith peekWith expandWith)

/-- The arguments of a call as far as they have been read. -/
structure Collecting where
  tokens : Array Token := #[]
  spans : Array (Int × Int) := #[]
  /-- Where the current argument begins. -/
  first : Nat := 0
  /-- How many inner parentheses are open. -/
  depth : Nat := 0
  deriving Repr

namespace Collecting

def endArgument (state : Collecting) : Collecting :=
  { state with spans := state.spans.push (state.first, state.tokens.size) }

def closedBy (state : Collecting) (token : Token) : Bool :=
  state.depth == 0 && token.isPunctuator ")"

/-- Takes a token that neither ends a line nor closes the call. -/
def take (state : Collecting) (token : Token) : Collecting :=
  if state.depth == 0 && token.isPunctuator "," then
    let ended := state.endArgument
    { ended with tokens := ended.tokens.push token, first := ended.tokens.size + 1 }
  else
    let depth :=
      if token.isPunctuator "(" then state.depth + 1
      else if token.isPunctuator ")" then state.depth - 1
      else state.depth
    { state with tokens := state.tokens.push token, depth }

end Collecting

inductive Collected where
  | closed (arguments : Arguments)
  | unclosed (tokens : List Token)
  deriving Repr

def collectArguments (move : Mover) :
    (fuel : Nat) → Collecting → List TokenStream → Engine (Collected × List TokenStream)
  | 0, _, _ => throw .outOfFuel
  | fuel + 1, state, sources => do
    let (token, sources) ← peekStack move sources
    if token.isEof || token.kind == .directive then
      return (.unclosed state.tokens.toList, sources)
    let (_, sources) ← readStack move sources
    if token.kind == .newline then collectArguments move fuel state sources
    else if state.closedBy token then
      let ended := state.endArgument
      return (.closed { tokens := ended.tokens.toList, spans := ended.spans.toList }, sources)
    else collectArguments move fuel (state.take token) sources

namespace Macro

/-- The arguments as a macro takes them: between empty parentheses, a macro without parameters has
no argument. -/
def adjustArguments (definition : Macro) (arguments : Arguments) : Arguments :=
  match arguments.spans with
  | [(first, last)] =>
    if definition.parameterCount == 0 && first == last then { arguments with spans := [] }
    else arguments
  | _ => arguments

/-- How many arguments a macro needs; a variadic macro takes more. -/
def requiredArguments (definition : Macro) : Nat :=
  if definition.isVariadic then definition.parameterCount - 1 else definition.parameterCount

/-- Whether a macro takes a number of arguments. -/
def acceptsCount (definition : Macro) (count : Nat) : Bool :=
  if definition.isVariadic then definition.requiredArguments ≤ count
  else count == definition.requiredArguments

end Macro

end Preproc
