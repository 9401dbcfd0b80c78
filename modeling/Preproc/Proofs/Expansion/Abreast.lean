import Preproc.Proofs.Expansion.Steady
import Preproc.Proofs.Expansion.Grounded

/-! # Expansions that go abreast through a line

Two expansions go abreast through a line if they are the same, apart from what comes after the line
in their sources. As long as no macro takes arguments, settling does not look beyond the end of the
line. So the two reach it together, and behind it each goes on with its own tokens.

Main statements: `Expansion.Abreast.advance` and `Expansion.Abreast.settle`.
-/

namespace Preproc

open TokenStream (move readStack readWith Stacked)
open Engine (Echoes Steady)

/-- A table of macros that take no arguments and whose bodies open no directive. -/
structure MacroTable.Simple (table : MacroTable) : Prop where
  plain : table.Plain
  objectLike : ∀ entry ∈ table.entries, entry.definition.isFunctionLike = false

/-- The runs that begin with such a table. -/
abbrev Realm.simple : Realm := .of MacroTable.Simple

theorem Engine.Echoes.alsoKept {α β : Type} {action : Engine α} {other : Engine β}
    {related : α → β → Prop} {given : Prop} {gives : α → Prop}
    (echoes : Echoes .simple action other related)
    (kept : Regime.undirected.Keeps given action gives) (holds : given) :
    Echoes .simple action other fun value value' => related value value' ∧ gives value := by
  refine echoes.gives.imp ?_
  rintro value value' ⟨related, context, next, simple, ran, _⟩
  have here := kept context
  rw [ran] at here
  exact ⟨related, ((here (by rintro ⟨⟩)).2 simple.plain holds).2⟩

namespace Expansion

variable {rest rest' : List Token} {streams streams' : List TokenStream} {token : Token}
  {fuel : Nat}

/-- One stream on both sides, in which no token opens a directive. -/
def Shared (stream stream' : TokenStream) : Prop :=
  Regime.undirected.Stream stream ∧ stream' = stream

/-- Scanners that have the same to hand out up to the end of a line. -/
def Lined (rest rest' : List Token) (stream stream' : TokenStream) : Prop :=
  ∃ file map lastLine front, LineRest front ∧
    stream = .scanner (.holding file map lastLine (front ++ rest)) ∧
    stream' = .scanner (.holding file map lastLine (front ++ rest'))

/-- The sources of two expansions that read on from tokens of their own. -/
def Past (rest rest' : List Token) (streams streams' : List TokenStream) : Prop :=
  ∃ file map lastLine, streams = [.scanner (.holding file map lastLine rest)] ∧
    streams' = [.scanner (.holding file map lastLine rest')]

/-- The sources of two expansions inside a line. -/
abbrev Inside (rest rest' : List Token) : List TokenStream → List TokenStream → Prop :=
  Stacked Shared (Lined rest rest')

/-- The sources of two expansions after a token was read inside a line: it may have been the end of
the line, and then it came from the scanners. -/
inductive Going (rest rest' : List Token) (token : Token) : List TokenStream → List TokenStream →
    Prop
  | inside {streams streams' : List TokenStream} (inside : Inside rest rest' streams streams')
      (goesOn : token.isEof = false) (plain : token.kind ≠ .directive) :
      Going rest rest' token streams streams'
  | ended {streams streams' : List TokenStream} (past : Past rest rest' streams streams')
      (newline : token.kind = .newline) : Going rest rest' token streams streams'

section

variable (going : Going rest rest' token streams streams')

include going

theorem Going.goesOn : token.isEof = false := by
  cases going with
  | inside _ goesOn _ => exact goesOn
  | ended _ newline => simp [Token.isEof, newline]

theorem Going.plain : token.kind ≠ .directive := by
  cases going with
  | inside _ _ plain => exact plain
  | ended _ newline =>
    rw [newline]
    decide

theorem Going.inside_of_ne
    (other : token.kind ≠ .newline) : Inside rest rest' streams streams' := by
  cases going with
  | inside inside _ _ => exact inside
  | ended _ newline => exact absurd newline other

end

section Stack

variable (ends : Terminated rest) (ends' : Terminated rest')
include ends ends'

theorem Lined.read {fits : MacroTable → Prop} {stream stream' : TokenStream}
    (lined : Lined rest rest' stream stream') :
    Echoes (.of fits) (readWith (move fuel) stream) (readWith (move fuel) stream')
      fun found found' => found'.1 = found.1 ∧
        (found.1.kind = .newline ∧ Past rest rest' [found.2] [found'.2] ∨
          found.1.endsLine = false ∧ found.1.kind ≠ .directive ∧
            Lined rest rest' found.2 found'.2) := by
  obtain ⟨file, map, lastLine, front, line, rfl, rfl⟩ := lined
  cases fuel with
  | zero => exact .throw _
  | succ fuel =>
    rw [TokenStream.readWith_scanner, TokenStream.readWith_scanner,
      Scanner.advance_holding (line.terminated ends),
        Scanner.advance_holding (line.terminated ends'),
      pure_bind, pure_bind, Scanner.head_holding, Scanner.head_holding]
    rcases line.cases with ⟨newline, rfl, kind⟩ | ⟨token, later, rfl, line, plain, inside, goesOn⟩
    · have notEof : newline.isEof = false := by simp [Token.isEof, kind]
      refine .pure ⟨rfl, .inl ⟨by simpa using kind, file, map, newline.location.line, ?_, ?_⟩⟩
      all_goals
        exact congrArg (fun scanner => [TokenStream.scanner scanner]) (Scanner.behind_cons notEof)
    · refine .pure ⟨rfl, .inr ⟨by simpa using inside, by simpa using plain, file, map,
        token.location.line, later, line, ?_, ?_⟩⟩
      all_goals exact congrArg _ (Scanner.behind_cons goesOn)

theorem echoes_readStack (inside : Inside rest rest' streams streams') :
    Echoes .simple (readStack (move fuel) streams)
      (readStack (move fuel) streams') fun found found' =>
      found'.1 = found.1 ∧ Going rest rest' found.1 found.2 found'.2 := by
  have lawful := Regime.lawful_undirected
  induction inside with
  | bottom lined =>
    refine .bind (lined.read ends ends') ?_
    rintro ⟨token, stream⟩ ⟨_, stream'⟩ ⟨rfl, ended | ⟨inside, plain, lined⟩⟩
    · exact .pure ⟨rfl, .ended ended.2 ended.1⟩
    · exact .pure ⟨rfl, .inside (.bottom lined) (by simp_all [Token.endsLine, Token.isEof]) plain⟩
  | @push _ stream below below' shared stacked ih =>
    obtain ⟨kept, rfl⟩ := shared
    unfold TokenStream.readStack
    rw [Stack.read_push _ _ stacked.ne_nil.1, Stack.read_push _ _ stacked.ne_nil.2]
    have reads :=
      (Regime.lawful_any.readWith (TokenStream.steady_move fuel) stream).echoes.alsoKept
      (lawful.readWith (lawful.moves_move fuel) stream) kept
    refine .bind reads ?_
    rintro _ ⟨token, stream⟩ ⟨rfl, plain, kept⟩
    dsimp only
    split
    · exact ih
    next goesOn =>
      exact .pure ⟨rfl, .inside (.push ⟨kept, rfl⟩ stacked) (by simpa using goesOn) plain⟩

end Stack

/-- The sources of two expansions that read a line from their scanners alone, after a token. -/
inductive Flush (rest rest' : List Token) (token : Token) : List TokenStream → List TokenStream →
    Prop
  | inside {stream stream' : TokenStream} (lined : Lined rest rest' stream stream')
      (goesOn : token.endsLine = false) : Flush rest rest' token [stream] [stream']
  | ended {streams streams' : List TokenStream} (past : Past rest rest' streams streams')
      (newline : token.kind = .newline) : Flush rest rest' token streams streams'

section

variable (flush : Flush rest rest' token streams streams')

include flush

theorem Flush.going
    (plain : token.kind ≠ .directive) : Going rest rest' token streams streams' := by
  cases flush with
  | inside lined goesOn =>
    exact .inside (.bottom lined) (by simp_all [Token.endsLine, Token.isEof]) plain
  | ended past newline => exact .ended past newline

theorem Flush.lined (goesOn : token.endsLine = false) :
    ∃ stream stream', streams = [stream] ∧ streams' = [stream'] ∧
      Lined rest rest' stream stream' := by
  cases flush with
  | inside lined _ => exact ⟨_, _, rfl, rfl, lined⟩
  | ended _ newline => simp [Token.endsLine, newline] at goesOn

theorem Flush.past (ends : token.endsLine = true) :
    Past rest rest' streams streams' ∧ token.kind = .newline := by
  cases flush with
  | inside _ goesOn =>
    rw [goesOn] at ends
    cases ends
  | ended past newline => exact ⟨past, newline⟩

end

/-- Two expansions that are the same apart from their sources. -/
structure Abreast (sources : Token → List TokenStream → List TokenStream → Prop)
    (expansion expansion' : Expansion TokenStream) : Prop where
  going : sources expansion.lookahead expansion.sources expansion'.sources
  same : expansion' = { expansion with sources := expansion'.sources }
  inherited : expansion.inherited = none

/-- Two expansions that show the first of tokens of their own, with nothing begun. -/
def Turned (rest rest' : List Token) (expansion expansion' : Expansion TokenStream) : Prop :=
  ∃ spot : Spot, expansion = spot.expansion rest ∧ expansion' = spot.expansion rest'

variable {expansion expansion' : Expansion TokenStream}

theorem Turned.lookahead_eq
    (turned : Turned (token :: rest) (token :: rest') expansion expansion') :
    expansion'.lookahead = expansion.lookahead := by
  obtain ⟨spot, rfl, rfl⟩ := turned
  rfl

theorem Turned.past (turned : Turned (token :: rest) (token :: rest') expansion expansion')
    (goesOn : token.isEof = false) : expansion.Abreast (fun _ => Past rest rest') expansion' := by
  obtain ⟨spot, rfl, rfl⟩ := turned
  exact ⟨⟨spot.file, spot.map, token.location.line, spot.sources_expansion goesOn rest,
    spot.sources_expansion goesOn rest'⟩, rfl, rfl⟩

theorem Turned.flush {front : List Token}
    (turned : Turned (token :: front ++ rest) (token :: front ++ rest') expansion expansion')
    (goesOn : token.endsLine = false) (line : LineRest front) :
    expansion.Abreast (Flush rest rest') expansion' := by
  have notEof : token.isEof = false := by simp_all [Token.endsLine, Token.isEof]
  obtain ⟨spot, rfl, rfl⟩ := turned
  refine ⟨?_, rfl, rfl⟩
  rw [List.cons_append, List.cons_append, spot.sources_expansion notEof,
    spot.sources_expansion notEof]
  exact .inside ⟨spot.file, spot.map, token.location.line, front, line, rfl, rfl⟩
    (by simpa [Spot.expansion] using goesOn)

theorem Turned.flush_of_line {front : List Token}
    (turned : Turned (front ++ rest) (front ++ rest') expansion expansion')
      (line : LineRest front) :
    expansion.Abreast (Flush rest rest') expansion' := by
  rcases line.cases with ⟨newline, rfl, kind⟩ | ⟨token, later, rfl, line, _, inside, _⟩
  · have abreast := turned.past (by simp [Token.isEof, kind])
    obtain ⟨spot, rfl, rfl⟩ := turned
    exact { abreast with going := .ended abreast.going (by simpa [Spot.expansion] using kind) }
  · exact turned.flush inside line

theorem Inside.busyOnTop (inside : Inside rest rest' streams streams') :
    ∃ busy, Expansion.busyOnTop streams = pure busy ∧ Expansion.busyOnTop streams' = pure busy := by
  cases inside with
  | bottom lined =>
    obtain ⟨file, map, lastLine, front, _, rfl, rfl⟩ := lined
    exact ⟨[], rfl, rfl⟩
  | @push _ stream _ _ shared _ =>
    obtain ⟨_, rfl⟩ := shared
    exact ⟨stream.busy, rfl, rfl⟩

theorem Inside.retireFinished (inside : Inside rest rest' streams streams') :
    Inside rest rest' (Expansion.retireFinished streams) (Expansion.retireFinished streams') := by
  cases inside with
  | bottom lined =>
    have lined' := lined
    obtain ⟨file, map, lastLine, front, _, rfl, rfl⟩ := lined'
    exact .bottom lined
  | push shared stacked =>
    have kept := shared
    obtain ⟨_, rfl⟩ := shared
    simp only [Expansion.retireFinished]
    split
    · exact stacked
    · exact .push kept stacked

namespace Abreast

variable {sources sources' : Token → List TokenStream → List TokenStream → Prop}
  {expansion expansion' : Expansion TokenStream}

theorem lookahead_eq (abreast : expansion.Abreast sources expansion') :
    expansion'.lookahead = expansion.lookahead := by
  rw [abreast.same]

theorem moved (abreast : expansion.Abreast sources expansion')
    (going : sources' token streams streams') (leftAlone : Bool) :
    Abreast sources' { expansion with lookahead := token, sources := streams, leftAlone }
      { expansion' with lookahead := token, sources := streams', leftAlone } :=
  ⟨going, by rw [abreast.same], abreast.inherited⟩

theorem rooted (abreast : expansion.Abreast (Going rest rest') expansion')
    (inside : Inside rest rest' expansion.sources expansion'.sources) :
    expansion.rooted.Abreast (Going rest rest') expansion'.rooted := by
  have sameTest : (expansion'.sources.length == 1 && expansion'.inherited.isNone) =
      (expansion.sources.length == 1 && expansion.inherited.isNone) := by
    rw [inside.length_eq, abreast.same]
  unfold Expansion.rooted
  rw [sameTest]
  split
  · exact ⟨abreast.going, by rw [abreast.same], abreast.inherited⟩
  · exact abreast

variable (ends : Terminated rest) (ends' : Terminated rest')
include ends ends'

theorem turn {fits : MacroTable → Prop}
    (abreast : expansion.Abreast (fun _ => Past rest rest') expansion')
    (goesOn : expansion.lookahead.isEof = false) :
    Echoes (.of fits) (expansion.advance (move fuel)) (expansion'.advance (move fuel))
      (Turned rest rest') := by
  obtain ⟨file, map, lastLine, single, single'⟩ := abreast.going
  unfold Expansion.advance
  rw [abreast.lookahead_eq, goesOn, single, single']
  cases fuel with
  | zero => exact .throw _
  | succ fuel =>
    rw [TokenStream.readStack_holding fuel ends, TokenStream.readStack_holding fuel ends']
    refine .pure ⟨⟨"", file, map, expansion.origin⟩, ?_, ?_⟩
    · rw [abreast.inherited]
      rfl
    · rw [abreast.same, abreast.inherited]
      rfl

theorem advance_flush {fits : MacroTable → Prop}
    (abreast : expansion.Abreast (Flush rest rest') expansion')
    (goesOn : expansion.lookahead.endsLine = false) :
    Echoes (.of fits) (expansion.advance (move fuel)) (expansion'.advance (move fuel))
      (Abreast (Flush rest rest')) := by
  have notEof : expansion.lookahead.isEof = false := by simp_all [Token.endsLine, Token.isEof]
  obtain ⟨stream, stream', single, single', lined⟩ := abreast.going.lined goesOn
  have reads : Echoes (.of fits) (readStack (move fuel) [stream])
      (readStack (move fuel) [stream']) fun found found' =>
        found'.1 = found.1 ∧ Flush rest rest' found.1 found.2 found'.2 := by
    refine .bind (lined.read ends ends') ?_
    rintro ⟨token, stream⟩ ⟨_, stream'⟩ ⟨rfl, ended | ⟨inside, _, lined⟩⟩
    · exact .pure ⟨rfl, .ended ended.2 ended.1⟩
    · exact .pure ⟨rfl, .inside lined inside⟩
  unfold Expansion.advance
  rw [abreast.lookahead_eq, notEof, single, single']
  refine .bind reads ?_
  rintro ⟨token, sources⟩ ⟨_, sources'⟩ ⟨rfl, flush⟩
  exact .pure (abreast.moved flush false)

variable (abreast : expansion.Abreast (Going rest rest') expansion')
include abreast

/-- **Taking a token** inside the line, or its end. -/
theorem advance :
    Echoes .simple (expansion.advance (move fuel))
      (expansion'.advance (move fuel)) fun next next' =>
        next.Abreast (Going rest rest') next' ∨ Turned rest rest' next next' := by
  have going := abreast.going
  generalize here : expansion.lookahead = token at going
  cases going with
  | inside inside goesOn _ =>
    unfold Expansion.advance
    rw [abreast.lookahead_eq, here, goesOn]
    refine .bind (echoes_readStack ends ends' inside) ?_
    rintro ⟨token, sources⟩ ⟨_, sources'⟩ ⟨rfl, going⟩
    exact .pure (.inl (abreast.moved going false))
  | ended past newline =>
    have behind : expansion.Abreast (fun _ => Past rest rest') expansion' :=
      { abreast with going := past }
    exact (behind.turn ends ends' abreast.going.goesOn).imp fun _ _ => .inr

theorem begin {invocation : Playback TokenStream} (around : List Macro.Entry)
    (call : Regime.undirected.Call invocation) (ended : invocation.lookahead.kind ≠ .directive)
    (fresh : invocation.operands = []) (inside : Inside rest rest' streams streams') :
    Echoes .simple (expansion.begin (move fuel) invocation around streams)
      (expansion'.begin (move fuel) invocation around streams') (Abreast (Going rest rest')) := by
  have lawful := Regime.lawful_undirected
  have primes :=
    (Regime.lawful_any.prime (TokenStream.steady_move fuel) invocation around).echoes.alsoKept
      (lawful.prime (lawful.moves_move fuel) invocation around)
    ⟨⟨call, ended⟩, fresh ▸ Regime.streams_nil⟩
  refine .bind primes ?_
  rintro _ primed ⟨rfl, kept⟩
  refine .bind (echoes_readStack ends ends' (.push ⟨kept, rfl⟩ inside)) ?_
  rintro ⟨token, sources⟩ ⟨_, sources'⟩ ⟨rfl, going⟩
  refine .pure ⟨going, ?_, abreast.inherited⟩
  rw [abreast.same]

omit abreast in
/-- Two attempts that leave expansions abreast. -/
inductive Attempted (rest rest' : List Token) : Attempt → Attempt → Prop
  | stays {expansion expansion' : Expansion TokenStream}
      (abreast : expansion.Abreast (Going rest rest') expansion') :
      Attempted rest rest' (.stays expansion) (.stays expansion')
  | again {expansion expansion' : Expansion TokenStream}
      (abreast : expansion.Abreast (Going rest rest') expansion') :
      Attempted rest rest' (.again expansion) (.again expansion')

theorem attempt (bound : Nat) :
    Echoes .simple (expansion.attempt (move fuel) bound)
      (expansion'.attempt (move fuel) bound) (Attempted rest rest') := by
  have leftAlone : expansion'.leftAlone = expansion.leftAlone := by rw [abreast.same]
  rw [attempt_eq, attempt_eq, abreast.lookahead_eq, leftAlone]
  by_cases passed : (!expansion.lookahead.isIdentifier || expansion.leftAlone) = true
  · rw [if_pos passed, if_pos passed]
    exact .pure (.stays abreast)
  rw [if_neg passed, if_neg passed]
  have named : expansion.lookahead.isIdentifier = true := by simp_all
  have notNewline : expansion.lookahead.kind ≠ .newline := by
    intro newline
    simp [Token.isIdentifier, newline] at named
  have inside := abreast.going.inside_of_ne notNewline
  have looks : Echoes .simple (Engine.entry? expansion.lookahead.lexeme)
      (Engine.entry? expansion.lookahead.lexeme) fun found found' => found' = found ∧
        ∀ entry ∈ found, Regime.undirected.entry entry ∧ entry.definition.isFunctionLike =
          false := by
    refine (Steady.lookup _).echoes.gives.imp ?_
    rintro _ _ ⟨same, context, _, simple, ⟨⟩, _⟩
    refine ⟨same, fun entry found => ?_⟩
    have member := List.mem_of_find?_eq_some found
    exact ⟨simple.plain entry member, simple.objectLike entry member⟩
  refine .bind looks ?_
  rintro _ found ⟨rfl, simple⟩
  cases found with
  | none => exact .pure (.stays abreast)
  | some entry =>
    obtain ⟨plain, objectLike⟩ := simple entry rfl
    obtain ⟨busy, onTop, onTop'⟩ := inside.busyOnTop
    dsimp only
    rw [onTop, onTop', pure_bind, pure_bind]
    by_cases isBusy : isBusy entry busy = true
    · rw [if_pos isBusy, if_pos isBusy]
      exact .pure (.stays abreast)
    have begun := abreast.rooted inside
    have origin : expansion'.rooted.origin = expansion.rooted.origin := by rw [begun.same]
    have retired := inside.retireFinished
    obtain ⟨around, below, below'⟩ := retired.busyOnTop
    rw [if_neg isBusy, if_neg isBusy, objectLike, if_neg (by simp), if_neg (by simp),
      sources_rooted,
      sources_rooted, inside.length_eq, below, below', pure_bind, pure_bind, origin]
    refine .bind (begun.begin ends ends' around
      ⟨plain, trivial, Regime.rooted_of_forall (fun _ => trivial) _, by simp,
      trivial⟩ (by simp [Token.endOfInput]) rfl retired) ?_
    intro next next' abreast
    exact .pure (.again abreast)

/-- **Settling inside a line**, or at its end, does not look beyond it, since no macro takes
arguments. -/
theorem settle (bound : Nat) :
    Echoes .simple (expansion.settle (move fuel) bound)
      (expansion'.settle (move fuel) bound) (Abreast (Going rest rest')) := by
  induction bound generalizing expansion expansion' with
  | zero => exact .throw _
  | succ bound ih =>
    refine .bind (abreast.attempt ends ends' bound) ?_
    intro attempt attempt' same
    cases same with
    | stays abreast => exact .pure abreast
    | again abreast => exact ih abreast

end Abreast

end Expansion

end Preproc
