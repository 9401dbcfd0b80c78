import Preproc.Engine

/-! # Queues of tokens

A queue hands out tokens that are already there, and after them its end forever. It may stand
inside the playback of macros, which are then busy for the tokens that come from it.
-/

namespace Preproc

/-- Tokens that are still to come, and the end after them. -/
structure TokenQueue where
  tokens : List Token
  finish : Token
  busy : List Macro.Entry := []
  deriving Repr

namespace TokenQueue

/-- Where tokens end if nothing else is said: at the last of them. -/
def defaultEnd (tokens : List Token) : Location :=
  match tokens.getLast? with
  | some token => token.location
  | none => .unknown

/-- All the tokens of a list, ending at a place or else at the last token. -/
def ofList (tokens : List Token) (finish : Option Location) : TokenQueue :=
  { tokens, finish := .endOfInput (finish.getD (defaultEnd tokens)) }

/-- The tokens of a list from `first` up to, and without, `last`. The span has to lie inside the
list. -/
def slice (tokens : List Token) (first : Int) (last : Option Int) (finish : Option Location)
    (busy : List Macro.Entry) : Except Fault TokenQueue :=
  let stop := last.getD tokens.length
  if 0 ≤ first ∧ first ≤ stop ∧ stop ≤ tokens.length then
    let front := tokens.take stop.toNat
    .ok
      { tokens := front.drop first.toNat
        finish := .endOfInput (finish.getD (defaultEnd front))
        busy }
  else .error (.spanOutOfRange first last)

def head (queue : TokenQueue) : Token :=
  queue.tokens.headD queue.finish

def advance (queue : TokenQueue) : TokenQueue :=
  { queue with tokens := queue.tokens.tail }

def close (queue : TokenQueue) : TokenQueue :=
  { queue with tokens := [] }

end TokenQueue

end Preproc
