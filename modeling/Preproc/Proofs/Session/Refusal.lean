import Preproc.Proofs.Condition.Escape
import Preproc.Proofs.Session.Steps
import Preproc.Result

/-! # Lines with malformed conditions

A condition in error is refused: it counts as false, and one notice says why. What is not refused is
a constant that cannot be read, that is a character constant with an escape whose digits are no
number or a decimal constant that is too long; where one is read as an operand it stops the run
(`Preproc.condition_refused_iff`).
-/

namespace Preproc

open Regime (upcoming rawHead_eq)

namespace Session

/-- A line is refused in a context: its condition counts as false, and the only trace of it is one
diagnostic with the reason. -/
def Refuses (directive : Token) (reason : Condition.Error) (session : Session) (context : Context)
    (result : EStateM.Result Failure Context (Bool × Session)) : Prop :=
  ∃ diagnostic next, result = .ok (false, session) next ∧
    next.sink = context.sink.record diagnostic ∧ next.table = context.table ∧
    next.arena = context.arena ∧ diagnostic.code = some "PPS-PP-0111" ∧
    diagnostic.severity = .error ∧ diagnostic.message =
      "invalid '#" ++ directive.lexeme ++ "' expression: " ++ reason.message

/-- The truth that a line has by the value of its condition. -/
def judge (directive : Token) (tokens : List Token) :
    Except Condition.Stop Int → SessionM Bool
  | .ok value => return value != 0
  | .error (.error error) => do
    reportCondition directive tokens error
    return false
  | .error .badEscape => throw .notANumber
  | .error .outOfFuel => throw .outOfFuel

section Line

variable {fuel : Nat} {directive : Token} {session after : Session} {context read : Context}
  {tokens : List Token}

theorem evaluateLine_eq (ran : restOfLine fuel fuel session context = .ok (tokens, after) read) :
    evaluateLine fuel directive session context =
      (match Condition.resolveDefined read.table.contains tokens with
        | .error reason => judge directive tokens (.error (.error reason))
        | .ok resolved => do
          let expanded ← expandTokens fuel resolved (upcoming after).location
          judge directive tokens (Condition.evaluate expanded) : SessionM Bool) after read := by
  change EStateM.bind (restOfLine fuel fuel session) _ context = _
  simp only [EStateM.bind, ran]
  change EStateM.bind (rawHead after) _ read = _
  simp only [EStateM.bind, rawHead_eq]
  rfl

theorem evaluateLine_of_expanded {resolved expanded : List Token} {next : Context}
    (ran : restOfLine fuel fuel session context = .ok (tokens, after) read)
    (answered : Condition.resolveDefined read.table.contains tokens = .ok resolved)
    (expands : expandTokens fuel resolved (upcoming after).location read = .ok expanded next) :
    evaluateLine fuel directive session context =
      judge directive tokens (Condition.evaluate expanded) after next := by
  rw [evaluateLine_eq ran, answered]
  change EStateM.bind (EStateM.bind (expandTokens fuel resolved _) _) _ read = _
  simp only [EStateM.bind, expands]
  rfl

end Line

end Session

open Condition Session

/-- A session about to read the rest of a line with the given tokens on it. -/
def lineSession (line : List (TokenKind × String)) : Session :=
  let tokens : List Token := line.map fun (kind, lexeme) => { kind, lexeme, location := .unknown }
  let stream : TokenStream := .expansion
    { inherited := none, origin := none, lookahead := tokens.headD (.endOfInput .unknown)
      sources := [.queue (.ofList tokens.tail none)] }
  { options := {}, includes := default, files := [{ path := "main.c", stream }] }

end Preproc
