import Preproc.Proofs.Expansion.Arguments
import Preproc.Proofs.Expansion.Nested
import Preproc.Proofs.Macro.Table

/-! # The identity macro

A macro with one parameter and the parameter as its body gives its argument back. The argument is
expanded first, by an expansion of its own, and what it gives is read again inside the invocation,
where only the identity macro itself is busy. So a call gives what a *second pass* over the expanded
argument gives, and this may be more than the expanded argument: a name that was left alone inside
its own expansion is no longer inside it on the second pass.

Main statement: `identity_secondPass`.
-/

namespace Preproc

open TokenStream (move Mover readStack peekStack readWith peekWith Delivers Shows Drains GivesOnce
  AtLeast shows_queue)
open Engine (Ensures Follows Meets Yields bind_ok_iff kinship_sharing sharing yields_iff)

namespace Macro

/-- A macro that a definition line gives with one parameter and with that parameter as its body. -/
def Identity (definition : Macro) : Prop :=
  ∃ nameToken parameter use place, parameter.variadic = false ∧ use.isIdentifier = true ∧
    use.lexeme = parameter.name ∧
    (build nameToken (some [parameter]) [use] place).1 = .ok definition

variable {definition : Macro} (identity : definition.Identity)

include identity

theorem Identity.eq_build : ∃ nameToken parameter use place, parameter.variadic = false ∧
      definition =
        { flavor := .functionLike, name := nameToken.lexeme, body := [use],
          ops := [.expanded 0 0], parameters := [parameter], nameToken := some nameToken,
          endLocation := place } := by
  obtain ⟨nameToken, parameter, use, place, single, isName, same, built⟩ := identity
  refine ⟨nameToken, parameter, use, place, single, ?_⟩
  have index : firstIndex [parameter.name] use = some 0 := by
    simp [firstIndex, isName, same]
  have ops : (Op.compile (firstIndex [parameter.name]) true [use]).ops = [.expanded 0 0] := by
    simp [Op.compile, Op.compileFrom, index, Op.finish, Op.Compiled.after, Op.shieldOperands,
      Op.beginsWithPaste]
  simpa [build, checked, ops, eq_comm] using built

theorem Identity.isFunctionLike : definition.isFunctionLike = true := by
  obtain ⟨_, _, _, _, _, rfl⟩ := identity.eq_build
  rfl

theorem Identity.ops : definition.ops = [.expanded 0 0] := by
  obtain ⟨_, _, _, _, _, rfl⟩ := identity.eq_build
  rfl

theorem Identity.isVariadic : definition.isVariadic = false := by
  obtain ⟨_, _, _, _, single, rfl⟩ := identity.eq_build
  exact single

theorem Identity.parameterCount : definition.parameterCount = 1 := by
  obtain ⟨_, _, _, _, _, rfl⟩ := identity.eq_build
  rfl

theorem Identity.adjustArguments (tokens : List Token)
    (span : Int × Int) : definition.adjustArguments ⟨tokens, [span]⟩ = ⟨tokens, [span]⟩ := by
  simp [Macro.adjustArguments, identity.parameterCount]

theorem Identity.acceptsCount : definition.acceptsCount 1 = true := by
  simp [Macro.acceptsCount, Macro.requiredArguments, identity.isVariadic, identity.parameterCount]

end Macro

/-- A token that an argument consists of: it neither ends anything nor separates arguments. -/
def Token.InArgument (token : Token) : Prop :=
  token.isEof = false ∧ token.kind ≠ .newline ∧ token.kind ≠ .directive ∧
    token.isPunctuator "(" = false ∧ token.isPunctuator ")" = false ∧
    token.isPunctuator "," = false

theorem isArgument_of_inArgument {tokens : List Token}
    (inside : ∀ token ∈ tokens, token.InArgument) : IsArgument tokens := by
  refine ⟨fun token member => ?_, ?_⟩
  · obtain ⟨goesOn, noNewline, noDirective, _⟩ := inside token member
    exact ⟨goesOn, noNewline, noDirective⟩
  · induction tokens with
    | nil => rfl
    | cons token tokens ih =>
      obtain ⟨⟨_, _, _, noOpening, noClosing, noComma⟩, inside⟩ := List.forall_mem_cons.mp inside
      simp [isBalanced, noOpening, noClosing, noComma, ih inside]

/-! ## The argument -/

/-- Whether a macro of the table tells from where its expansion began. -/
def MacroTable.TellsOrigin (table : MacroTable) : Prop :=
  ∃ entry ∈ table.entries, ∃ op ∈ entry.definition.ops, op.readsOrigin = true

def Expansion.opened (inherited : Option Token) (queue : TokenQueue) : Expansion TokenStream :=
  { inherited, origin := inherited, lookahead := queue.head, sources := [.queue queue.advance] }

/-- Streams that are built in the same way, with origins that macros do not tell apart. -/
def Likeness.elsewhere (table : MacroTable) : Likeness where
  loose := True
  origins origin origin' := origin'.isSome = origin.isSome ∧
    (table.TellsOrigin → originPlace origin = originPlace origin')
  supplies _ _ := False
  names token := (table.entryFor? token).isSome = true

theorem Likeness.lawful_elsewhere (table : MacroTable) : (elsewhere table).Lawful table where
  known related := related.1
  fresh _ _ := ⟨rfl, fun _ => rfl⟩
  places entry member op played reads _ _ related := related.2 ⟨entry, member, op, played, reads⟩
  busy supplies := supplies.elim
  finished supplies := supplies.elim
  names named found := by
    simp only [elsewhere, MacroTable.entryFor?, named, found]
    rfl

theorem Likeness.supplied_elsewhere (table : MacroTable) (kin : Context → Context → Prop)
    (gap : Nat) : (elsewhere table).Supplied kin gap where
  read supplies := supplies.elim
  peek supplies := supplies.elim

/-- A token that may begin an invocation in place of another, if it begins one. -/
def Token.StandsFor (token : Token) (table : MacroTable) (name : Token) : Prop :=
  token.kind ≠ .newline ∧ ((table.entryFor? token).isSome = true → table.TellsOrigin →
    originPlace (some token) = originPlace (some name))

variable {table : MacroTable} {name : Token} {tokens : List Token}

theorem Expansion.alike_opened (stand : ∀ token ∈ tokens, token.StandsFor table name)
    (finish finish' : Location) :
    (opened none (.ofList tokens (some finish))).Alike (.elsewhere table)
      (·.StandsFor table name) (opened (some name) (.ofList tokens (some finish'))) := by
  have same : (Likeness.elsewhere table).Same (.endOfInput finish) (.endOfInput finish') :=
    .inr ⟨trivial, rfl, rfl⟩
  have feeds : TokenStream.Feeds (·.StandsFor table name)
      (.queue (TokenQueue.ofList tokens (some finish)).advance) :=
    .inr ⟨_, rfl, rfl, fun token member => stand token (List.mem_of_mem_tail member)⟩
  exact {
    lookahead := Likeness.same_queueHead rfl same
    leftAlone := rfl
    named := by
      intro _ _
      cases tokens with
      | nil => exact .inl rfl
      | cons first rest => exact .inr (stand first (by simp))
    begun := .inr ⟨rfl, rfl⟩
    inherits := fun impossible => nomatch impossible
    fits := fun _ stands names _ => ⟨rfl, stands.2 names⟩
    sources := .bottom ⟨⟨.queue rfl same rfl, trivial⟩, feeds⟩ }

theorem expandTokens_succ (fuel : Nat) (tokens : List Token) (finish : Location) :
    expandTokens (fuel + 1) tokens finish = do
      return (← (TokenStream.expansion (.opened none (.ofList tokens (some finish)))).drain
        (fuel + 1) (fuel + 1)).1 :=
  rfl

def ExpandsOnce (table : MacroTable) (tokens out : List Token) : Prop :=
  ∃ fuel finish context next, context.table = table ∧
    expandTokens fuel tokens finish context = .ok out next

/-- A list of tokens is expanded to another one in every run with the table and enough fuel. -/
def Expands (table : MacroTable) (tokens out : List Token) : Prop :=
  ∃ enough, ∀ fuel, enough ≤ fuel → ∀ (finish : Location) (context : Context),
    context.table = table →
      ∃ next, expandTokens fuel tokens finish context = .ok out next ∧ next.table = table

theorem ExpandsOnce.drains {out : List Token} (expands : ExpandsOnce table tokens out) :
    ∃ fuel finish, (TokenStream.expansion (.opened none (.ofList tokens (some finish)))).Drains
      table (fuel + 1) out := by
  obtain ⟨fuel, finish, context, next, same, ran⟩ := expands
  cases fuel with
  | zero => cases ran
  | succ fuel =>
    rw [expandTokens_succ] at ran
    obtain ⟨⟨drained, last⟩, _, ran, result⟩ := bind_ok_iff.mp ran
    cases result
    exact ⟨fuel, finish, fuel + 1, context, last, next, same, ran⟩

theorem TokenStream.ensures_drain (fuel bound : Nat) (stream : TokenStream) :
    Ensures (stream.drain fuel bound) fun drained =>
      ∀ token ∈ drained.1, token.isEof = false := by
  induction bound generalizing stream with
  | zero => exact .throw trivial
  | succ bound ih =>
    refine .after ?_
    intro ⟨token, rest⟩
    dsimp only
    by_cases ended : token.isEof = true
    · rw [if_pos ended]
      exact .pure (by simp)
    · rw [if_neg ended]
      refine .bind (ih rest) ?_
      intro ⟨drained, last⟩ each
      exact .pure (List.forall_mem_cons.mpr ⟨by simpa using ended, each⟩)

theorem TokenStream.Drains.goesOn {fuel : Nat} {stream : TokenStream}
    (drains : stream.Drains table fuel tokens) : ∀ token ∈ tokens, token.isEof = false := by
  obtain ⟨bound, context, last, next, _, ran⟩ := drains
  exact (ensures_drain fuel bound stream).gives ran

/-! ## The invocation -/

variable {token : Token}

theorem TokenStream.Shows.same {like : Likeness} (loose : like.loose) {token' : Token}
    (shown : Shows tokens token) (shown' : Shows tokens token') : like.Same token token' := by
  cases tokens with
  | nil => exact .inr ⟨loose, shown, shown'⟩
  | cons first rest => exact .inl (shown.1.trans shown'.1.symm)

/-- A queue may stand for an expansion that delivers its tokens. -/
def Likeness.queued (table : MacroTable) (enough : Nat) : Likeness where
  loose := True
  origins := Eq
  supplies stream stream' := ∃ queue nested, stream = .queue queue ∧ stream' = .expansion nested ∧
    queue.busy = [] ∧ queue.finish.isEof = true ∧ (∀ token ∈ queue.tokens, token.isEof = false) ∧
    Delivers table True (AtLeast enough) queue.tokens stream'

theorem Likeness.lawful_queued (table : MacroTable) (enough : Nat) :
    (queued table enough).Lawful table where
  known := by
    rintro _ _ rfl
    rfl
  fresh _ _ := rfl
  places := by
    rintro _ _ _ _ _ _ _ rfl
    rfl
  busy := by
    rintro _ _ ⟨queue, nested, rfl, rfl, idle, _⟩
    exact idle.symm
  finished := by
    rintro _ _ ⟨queue, nested, rfl, rfl, _⟩
    rfl

namespace TokenStream

theorem ensures_moveExpansion (fuel : Nat) (kind : Move) (nested : Expansion TokenStream) :
    Ensures (move fuel kind (.expansion nested)) fun moved => ∃ nested', moved =
      .expansion nested' := by
  cases fuel with
  | zero => exact .throw trivial
  | succ fuel =>
    cases kind
    all_goals
      refine .after fun nested' => ?_
      exact .pure ⟨nested', rfl⟩

variable {enough fuel : Nat} {nested : Expansion TokenStream}

theorem yields_readNested (delivers : Delivers table True (AtLeast enough) tokens
    (.expansion nested)) (more : enough ≤ fuel) :
    Yields table True (readWith (move fuel) (.expansion nested)) fun found =>
      Shows tokens found.1 ∧ ∃ nested', found.2 = .expansion nested' ∧
        Delivers table True (AtLeast enough) tokens.tail (.expansion nested') := by
  have stays : Ensures (readWith (move fuel) (.expansion nested)) fun found =>
      ∃ nested', found.2 = .expansion nested' := by
    refine .bind (ensures_moveExpansion fuel .settle nested) ?_
    rintro _ ⟨settled, rfl⟩
    refine .bind (ensures_moveExpansion fuel .advance settled) ?_
    rintro _ ⟨nested', rfl⟩
    exact .pure ⟨nested', rfl⟩
  apply ((delivers.readWith ⟨fuel, more, rfl⟩).also stays).imp
  rintro ⟨token, _⟩ ⟨⟨shown, rest⟩, nested', rfl⟩
  exact ⟨shown, nested', rfl, rest⟩

theorem yields_peekNested (delivers : Delivers table True (AtLeast enough) tokens
    (.expansion nested)) (more : enough ≤ fuel) :
    Yields table True (peekWith (move fuel) (.expansion nested)) fun found =>
      Shows tokens found.1 ∧ ∃ nested', found.2 = .expansion nested' ∧
        Delivers table True (AtLeast enough) tokens (.expansion nested') := by
  have stays : Ensures (peekWith (move fuel) (.expansion nested)) fun found =>
      ∃ nested', found.2 = .expansion nested' := by
    refine .bind (ensures_moveExpansion fuel .settle nested) ?_
    rintro _ ⟨nested', rfl⟩
    exact .pure ⟨nested', rfl⟩
  apply ((delivers.peekWith ⟨fuel, more, rfl⟩).also stays).imp
  rintro ⟨token, _⟩ ⟨⟨shown, kept⟩, nested', rfl⟩
  exact ⟨shown, nested', rfl, kept⟩

end TokenStream

theorem Likeness.supplied_queued (table : MacroTable) (enough : Nat) :
    (queued table enough).Supplied (sharing table) enough where
  read := by
    rintro _ _ fuel fuel' ⟨queue, nested, rfl, rfl, idle, ends, goesOn, delivers⟩ more
    cases fuel with
    | zero => exact .outOfFuel
    | succ fuel =>
      apply Engine.follows_of_yields
      apply (TokenStream.yields_readNested delivers (by omega)).imp
      rintro ⟨token, _⟩ ⟨shown, nested', rfl, rest⟩
      refine ⟨(shows_queue goesOn ends).same trivial shown, queue.advance, nested', rfl, rfl,
        idle, ends, ?_, rest⟩
      exact fun token member => goesOn token (List.mem_of_mem_tail member)
  peek := by
    rintro _ _ fuel fuel' ⟨queue, nested, rfl, rfl, idle, ends, goesOn, delivers⟩ more
    cases fuel with
    | zero => exact .outOfFuel
    | succ fuel =>
      apply Engine.follows_of_yields
      apply (TokenStream.yields_peekNested delivers (by omega)).imp
      rintro ⟨token, _⟩ ⟨shown, nested', rfl, rest⟩
      exact ⟨(shows_queue goesOn ends).same trivial shown, queue, nested', rfl, rfl, idle, ends,
        goesOn, rest⟩

variable {rest result : List Token}

section Invocation

variable {out : List Token} {enough fuel : Nat} {nested : Expansion TokenStream}
  {playback : Playback TokenStream}

theorem Playback.yields_fetchNested (opened : playback.closed = false)
    (last : playback.pending = []) (operand : playback.operands = [.expansion nested])
    (delivers : Delivers table True (AtLeast enough) out (.expansion nested))
      (more : enough ≤ fuel) :
    Yields table True (playback.fetch (move fuel)) fun fetched =>
      ∃ lookahead nested', fetched = { playback with lookahead, operands := [.expansion nested'] } ∧
        Shows out lookahead ∧ Delivers table True (AtLeast enough) out.tail
          (.expansion nested') := by
  unfold Playback.fetch
  rw [opened, last, operand]
  have reads : Yields table True (readStack (move fuel) [.expansion nested]) fun found =>
      Shows out found.1 ∧ ∃ nested', found.2 = [.expansion nested'] ∧
        Delivers table True (AtLeast enough) out.tail (.expansion nested') := by
    apply Meets.bind (TokenStream.yields_readNested delivers more)
    rintro ⟨token, _⟩ ⟨shown, nested', rfl, rest⟩
    exact .pure ⟨shown, nested', rfl, rest⟩
  apply Meets.bind reads
  rintro ⟨token, _⟩ ⟨shown, nested', rfl, rest⟩
  have looks : Yields table True (exhausted (move fuel) token [.expansion nested'])
      fun found => ∃ nested', found.2 = [.expansion nested'] ∧
        Delivers table True (AtLeast enough) out.tail (.expansion nested') := by
    have peeks : Yields table True (peekStack (move fuel) [.expansion nested'])
        fun found => Shows out.tail found.1 ∧ ∃ nested', found.2 = [.expansion nested'] ∧
          Delivers table True (AtLeast enough) out.tail (.expansion nested') := by
      apply Meets.bind (TokenStream.yields_peekNested rest more)
      rintro ⟨token, _⟩ ⟨shown, nested', rfl, kept⟩
      exact .pure ⟨shown, nested', rfl, kept⟩
    apply Meets.bind peeks
    rintro ⟨next, _⟩ ⟨shownNext, nested', rfl, kept⟩
    -- After the end there is no other token.
    have lost : (!next.isEof && token.isEof) = false := by
      cases out with
      | nil =>
        have ended : next.isEof = true := shownNext
        simp [ended]
      | cons first rest =>
        have goesOn : token.isEof = false := (congrArg Token.isEof shown.1).trans shown.2
        simp [goesOn]
    dsimp only
    rw [lost]
    exact .pure ⟨nested', rfl, kept⟩
  unfold Playback.carry
  simp only [bind_assoc, pure_bind]
  apply Meets.bind looks
  rintro ⟨_, _⟩ ⟨nested'', rfl, kept⟩
  refine .pure ⟨token, nested'', ?_, shown, kept⟩
  rw [← last]

/-- The playback of an outermost invocation that takes the tokens it hands out from a queue. -/
def Playback.handingOut (entry : Macro.Entry) (name : Token) (tokens : List Token) :
    Playback TokenStream :=
  { entry, nameToken := name, origin := some name, outermost := true,
    operands := [.queue (.ofList tokens.tail (some name.location))],
    lookahead := tokens.headD (.endOfInput name.location) }

/-- The expansion of tokens as those of an outermost invocation, with nothing after it. -/
def Expansion.secondPass (entry : Macro.Entry) (name : Token) (finish : Location) :
    List Token → Expansion TokenStream
  | [] =>
    { inherited := none, origin := some name, lookahead := .endOfInput finish,
      sources := [.queue (.ofList [] (some finish))] }
  | token :: rest =>
    { inherited := none, origin := some name, lookahead := token,
      sources := [.playback (.handingOut entry name rest), .queue (.ofList [] (some finish))] }

/-- A second pass over tokens, as those of an outermost invocation, gives other tokens in some run
with the table. -/
def SecondPassGives (table : MacroTable) (entry : Macro.Entry) (name : Token)
    (tokens result : List Token) : Prop :=
  ∃ fuel finish, (TokenStream.expansion (.secondPass entry name finish tokens)).Drains table fuel
    result

variable {entry : Macro.Entry}

theorem Expansion.alike_secondPass_nil (finish finish' : Location) (enough : Nat) :
    (secondPass entry name finish []).Alike (.queued table enough) (fun _ => True)
      { inherited := none, origin := some name, lookahead := .endOfInput finish',
        sources := [.queue (.ofList [] (some finish'))] } where
  lookahead := .inr ⟨trivial, rfl, rfl⟩
  leftAlone := rfl
  named _ _ := .inl rfl
  begun := .inl rfl
  inherits impossible := nomatch impossible
  fits _ _ _ _ := rfl
  sources := .bottom ⟨⟨.queue rfl (.inr ⟨trivial, rfl, rfl⟩) rfl, trivial⟩, .inl fun _ => trivial⟩

theorem Expansion.alike_secondPass_cons (finish finish' : Location) {lookahead : Token}
    {arguments : Arguments} (goesOn : ∀ token ∈ rest, token.isEof = false)
    (shown : Shows rest lookahead)
    (delivers : Delivers table True (AtLeast enough) rest.tail (.expansion nested)) :
    (secondPass entry name finish (token :: rest)).Alike (.queued table enough) (fun _ => True)
      { inherited := none, origin := some name, lookahead := token,
        sources := [
          .playback
            { entry, nameToken := name, origin := some name, arguments, outermost := true,
              operands := [.expansion nested], lookahead },
          .queue (.ofList [] (some finish'))] } where
  lookahead := .refl token
  leftAlone := rfl
  named _ impossible := by simp [secondPass] at impossible
  begun := .inl rfl
  inherits impossible := nomatch impossible
  fits _ _ _ _ := rfl
  sources := by
    have same : (Likeness.queued table enough).Same
        (rest.headD (.endOfInput name.location)) lookahead :=
      TokenStream.Shows.same trivial
        (@shows_queue (.ofList rest (some name.location)) goesOn rfl) shown
    have supplied : (Likeness.queued table enough).supplies
        (.queue (.ofList rest.tail (some name.location))) (.expansion nested) :=
      ⟨_, nested, rfl, rfl, rfl, rfl,
        fun token member => goesOn token (List.mem_of_mem_tail member), delivers⟩
    refine .push ⟨.playback ?_ (.cons (.supplied supplied) .nil), trivial⟩
      (.bottom ⟨⟨.queue rfl (.inr ⟨trivial, rfl, rfl⟩) rfl, trivial⟩, .inl fun _ => trivial⟩)
    exact ⟨rfl, rfl, rfl, rfl, rfl, rfl, List.nil_suffix, .inl rfl, same⟩

theorem Playback.readStack_ended (ended : playback.lookahead.isEof = true) {queue : TokenQueue} :
    readStack (move (fuel + 1)) [.playback playback, .queue queue] =
      pure (queue.head, [.queue queue.advance]) := by
  have stays : playback.advance (move fuel) = pure playback := if_pos ended
  have taken : readWith (move (fuel + 1)) (.playback playback) =
      (pure (playback.lookahead, .playback playback) : Engine _) := by
    change (do
      let stream ← (do return TokenStream.playback (← playback.advance (move fuel)))
      return (playback.lookahead, stream) : Engine _) = _
    rw [stays]
    rfl
  change (readWith (move (fuel + 1)) (.playback playback) >>= _ : Engine _) = _
  rw [taken, pure_bind]
  dsimp only
  rw [if_pos ended]
  rfl

theorem Playback.readStack_goesOn (goesOn : playback.lookahead.isEof = false)
    {queue : TokenQueue} :
    readStack (move (fuel + 1)) [.playback playback, .queue queue] = do
      let fetched ← playback.fetch (move fuel)
      return (playback.lookahead, [.playback fetched, .queue queue]) := by
  have goes : ¬ playback.lookahead.isEof = true := by simp [goesOn]
  have fetches : playback.advance (move fuel) = playback.fetch (move fuel) :=
    if_neg goes
  have taken : readWith (move (fuel + 1)) (.playback playback) = (do
      let fetched ← playback.fetch (move fuel)
      return (playback.lookahead, .playback fetched) : Engine _) := by
    change (do
      let stream ← (do return TokenStream.playback (← playback.advance (move fuel)))
      return (playback.lookahead, stream) : Engine _) = _
    rw [fetches]
    simp
  change (readWith (move (fuel + 1)) (.playback playback) >>= _ : Engine _) = _
  rw [taken]
  simp [goesOn]

theorem Playback.openOp_identity (identity : playback.entry.definition.Identity)
    (arguments : playback.arguments = ⟨tokens, [(0, (tokens.length : Int))]⟩)
    (idle : playback.around = []) (fuel : Nat) :
    playback.openOp (move (fuel + 1)) (.expanded 0 0) =
      pure (.expansion (.opened playback.origin
        (.ofList tokens (some playback.nameToken.location)))) := by
  have span : playback.argumentSpan 0 = pure (0, (tokens.length : Int)) := by
    simp [Playback.argumentSpan, identity.isVariadic, arguments, Playback.item, Index.get?,
      Index.fromFront]
  have queue : playback.argumentQueue 0 playback.around =
      pure (.ofList tokens (some playback.nameToken.location)) := by
    simp [Playback.argumentQueue, span, arguments, TokenQueue.slice, Playback.require, idle,
      TokenQueue.ofList]
  unfold Playback.openOp
  dsimp only
  rw [queue, pure_bind]
  rfl

variable {sources : List TokenStream}

theorem Expansion.yields_begin (identity : entry.definition.Identity) (more : enough ≤ fuel)
    (delivers : Delivers table True (AtLeast enough) out
      (.expansion (.opened (some name) (.ofList tokens (some name.location)))))
    (goesOn : ∀ token ∈ out, token.isEof = false) (finish finish' : Location) : Yields table True
      (Expansion.begin (move (fuel + 1))
        { inherited := none, origin := some name, lookahead := name, sources }
        { entry, nameToken := name, origin := some name,
          arguments := ⟨tokens, [(0, (tokens.length : Int))]⟩, outermost := true,
          lookahead := .endOfInput name.location } []
        [.queue (.ofList [] (some finish'))])
      ((secondPass entry name finish out).Alike (.queued table enough) fun _ => True) := by
  have primes : Yields table True (Playback.prime (move (fuel + 1))
      { entry, nameToken := name, origin := some name,
        arguments := ⟨tokens, [(0, (tokens.length : Int))]⟩, outermost := true,
        lookahead := .endOfInput name.location } []) fun primed =>
      ∃ lookahead nested, primed =
        { entry, nameToken := name, origin := some name,
          arguments := ⟨tokens, [(0, (tokens.length : Int))]⟩, outermost := true,
          operands := [.expansion nested], lookahead } ∧
        Shows out lookahead ∧ Delivers table True (AtLeast enough) out.tail
          (.expansion nested) := by
    apply Meets.bind (.trace _)
    intro _ _
    dsimp only
    rw [identity.ops]
    dsimp only
    rw [Playback.openOp_identity identity rfl rfl fuel, pure_bind]
    exact Playback.yields_fetchNested rfl rfl rfl delivers (Nat.le_succ_of_le more)
  apply Meets.bind primes
  rintro _ ⟨lookahead, nested, rfl, shown, rest⟩
  cases out with
  | nil =>
    -- Nothing is left of the argument, so the end below is found.
    have ended : lookahead.isEof = true := shown
    rw [Playback.readStack_ended ended, pure_bind]
    exact .pure (alike_secondPass_nil finish finish' enough)
  | cons token out =>
    obtain ⟨rfl, here⟩ := shown
    rw [Playback.readStack_goesOn here, bind_assoc]
    obtain ⟨_, goesOn⟩ := List.forall_mem_cons.mp goesOn
    apply Meets.bind (Playback.yields_fetchNested rfl rfl rfl rest more)
    rintro _ ⟨following, nested', rfl, shown, rest⟩
    exact .pure (alike_secondPass_cons finish finish' goesOn shown rest)

theorem Expansion.attemptCall_identity (identity : entry.definition.Identity)
    {opening closing finish : Token} (opens : opening.isPunctuator "(" = true)
    (closes : closing.isPunctuator ")" = true) (inside : ∀ token ∈ tokens, token.InArgument)
    {bound : Nat} (enough : tokens.length < bound)
    (stack : sources = [.queue ⟨opening :: (tokens ++ [closing]), finish, []⟩]) :
    Expansion.attemptCall (move (fuel + 1)) bound
        { inherited := none, origin := some name, lookahead := name, sources } entry true = do
      return .again (← Expansion.begin (move (fuel + 1))
        { inherited := none, origin := some name, lookahead := name, sources }
        { entry, nameToken := name, origin := some name,
          arguments := ⟨tokens, [(0, (tokens.length : Int))]⟩, outermost := true,
          lookahead := .endOfInput name.location } [] [.queue ⟨[], finish, []⟩]) := by
  have spans : spansFrom 0 [tokens] = [(0, (tokens.length : Int))] := by simp [spansFrom]
  have adjusted : entry.definition.adjustArguments ⟨separated [tokens] [], spansFrom 0 [tokens]⟩ =
      ⟨tokens, [(0, (tokens.length : Int))]⟩ := by
    rw [spans]
    exact identity.adjustArguments tokens _
  exact attemptCall_separated fuel opens closes
    (List.forall_mem_singleton.mpr (isArgument_of_inArgument inside)) rfl (List.forall_mem_nil _)
    enough adjusted identity.acceptsCount stack true

variable {opening closing : Token} (named : table.entryFor? name = some entry)

include named

theorem MacroTable.entryFor?_eq_some :
    name.isIdentifier = true ∧ table.entry? name.lexeme = some entry := by
  unfold MacroTable.entryFor? at named
  split at named
  next isName => exact ⟨isName, named⟩
  next => cases named

theorem Expansion.attempt_opened (rest : List Token) (finish : Location) (move : Mover)
    (bound : Nat) {context : Context} (same : context.table = table) :
    (opened none (.ofList (name :: rest) (some finish))).attempt move bound context =
      (if entry.definition.isFunctionLike then attemptCall move bound
        { inherited := none, origin := some name, lookahead := name,
          sources := [.queue ⟨rest, .endOfInput finish, []⟩] } entry true
      else do return .again (← begin move
        { inherited := none, origin := some name, lookahead := name,
          sources := [.queue ⟨rest, .endOfInput finish, []⟩] }
        { entry, nameToken := name, origin := some name, outermost := true,
          lookahead := .endOfInput name.location }
        [] [.queue ⟨rest, .endOfInput finish, []⟩])) context := by
  obtain ⟨isName, found⟩ := MacroTable.entryFor?_eq_some named
  have looks : Engine.entry? name.lexeme context = .ok (some entry) context := by
    rw [← found, ← same]
    rfl
  change (if (!name.isIdentifier || false) = true then _ else _ : Engine Attempt) context = _
  rw [if_neg (by simp [isName])]
  change EStateM.bind (Engine.entry? name.lexeme) _ context = _
  simp only [EStateM.bind, looks]
  rfl

theorem Expansion.yields_attempt
    (identity : entry.definition.Identity) (opens : opening.isPunctuator "(" = true)
    (closes : closing.isPunctuator ")" = true) (inside : ∀ token ∈ tokens, token.InArgument)
    (more : enough ≤ fuel) (delivers : Delivers table True (AtLeast enough) out
      (.expansion (.opened (some name) (.ofList tokens (some name.location)))))
    (goesOn : ∀ token ∈ out, token.isEof = false) (finish finish' : Location) {bound : Nat}
    (long : tokens.length < bound) :
    Yields table True
      ((opened none (.ofList (name :: opening :: (tokens ++ [closing])) (some finish'))).attempt
        (move (fuel + 1)) bound) fun attempt => ∃ begun, attempt = .again begun ∧
      (secondPass entry name finish out).Alike (.queued table enough) (fun _ => True) begun := by
  refine .congr ?_ fun _ same => attempt_opened named _ _ _ _ same
  rw [if_pos identity.isFunctionLike, attemptCall_identity identity opens closes inside long rfl]
  exact (yields_begin identity more delivers goesOn finish finish').image

theorem expands_of_secondPass
    (identity : entry.definition.Identity) (opens : opening.isPunctuator "(" = true)
    (closes : closing.isPunctuator ")" = true) (inside : ∀ token ∈ tokens, token.InArgument)
    (delivers : Delivers table True (AtLeast enough) out
      (.expansion (.opened (some name) (.ofList tokens (some name.location)))))
    (goesOn : ∀ token ∈ out, token.isEof = false)
    (gives : SecondPassGives table entry name out result) :
    Expands table (name :: opening :: (tokens ++ [closing])) result := by
  obtain ⟨fuel, finish, bound, context, last, next, same, ran⟩ := gives
  refine ⟨fuel + enough + tokens.length + bound + 3, fun more bounds finish' context' same' => ?_⟩
  cases fuel with
  | zero =>
    cases bound with
    | zero => cases ran
    | succ bound => cases ran
  | succ fuel =>
    cases bound with
    | zero => cases ran
    | succ bound =>
      obtain ⟨fuel', rfl⟩ := Nat.exists_eq_add_of_le' (Nat.le_trans (Nat.le_add_left 3 _) bounds)
      have lawful := Likeness.lawful_queued table enough
      have supplied := Likeness.supplied_queued table enough
      have agree : (Likeness.queued table enough).Agree (sharing table) (move fuel)
          (move (fuel' + 2)) :=
        Likeness.agree_move lawful (kinship_sharing table) supplied (by omega)
      have tame : Tame fun _ => True := .inl fun _ => trivial
      -- The call is one step that the second pass does not have.
      have settles : Follows (sharing table)
          ((Expansion.secondPass entry name finish out).settle (move fuel) fuel)
          ((Expansion.opened none (.ofList (name :: opening :: (tokens ++ [closing]))
            (some finish'))).settle (move (fuel' + 2)) (fuel' + 2))
          (Expansion.Alike (.queued table enough) fun _ => True) := by
        apply Follows.stutter (Expansion.yields_attempt named identity opens closes inside
          (by omega : enough ≤ fuel' + 1) delivers goesOn finish finish' (by omega))
        rintro _ ⟨begun, rfl, alike⟩
        apply (alike.settle lawful (kinship_sharing table) agree tame (by omega)).imp
        exact fun _ _ => And.left
      have drains := Likeness.follows_drain_succ
        (Likeness.follows_readSettled agree tame settles) fun alike =>
          Likeness.follows_drain lawful (kinship_sharing table) supplied
            (by omega : fuel + 1 + enough ≤ fuel' + 3) (by omega : bound ≤ fuel' + 2) alike
      obtain ⟨_, yields⟩ := drains.yields same ran
      have whole : Yields table True (expandTokens (fuel' + 3)
          (name :: opening :: (tokens ++ [closing])) finish') (· = result) := by
        apply Meets.bind yields
        rintro ⟨_, _⟩ rfl
        exact .pure rfl
      obtain ⟨_, next', ran', kept, -, rfl⟩ := yields_iff.mp whole context' same'
      exact ⟨next', ran', kept⟩

end Invocation

section SecondPass

variable {entry : Macro.Entry}

theorem Expansion.rests_secondPass (finish : Location)
    (own : ∀ other, table.entryFor? token = some other → other = entry) :
    (secondPass entry name finish (token :: rest)).Rests table := by
  by_cases isName : token.isIdentifier = true
  · cases found : table.entry? token.lexeme with
    | none => exact .unnamed found
    | some other =>
      have same := own other (by rw [MacroTable.entryFor?, if_pos isName, found])
      refine .busy found rfl ?_
      simp [TokenStream.busy, Playback.chain, Playback.handingOut, isBusy, same]
  · exact .passed (by simp [secondPass, isName])

theorem Playback.fetch_handingOut (fuel : Nat) (goesOn : ∀ token ∈ rest, token.isEof = false) :
    (handingOut entry name (token :: rest)).fetch (move (fuel + 1)) =
      pure (handingOut entry name rest) := by
  have lost : (!(TokenQueue.ofList rest.tail (some name.location)).head.isEof &&
      (TokenQueue.ofList rest (some name.location)).head.isEof) = false := by
    cases rest with
    | nil => rfl
    | cons first rest =>
      have here : first.isEof = false := goesOn first (by simp)
      simp [TokenQueue.head, TokenQueue.ofList, here]
  have looks : exhausted (move (fuel + 1))
      (TokenQueue.ofList rest (some name.location)).head
      [.queue (.ofList rest.tail (some name.location))] =
      pure ((TokenQueue.ofList rest.tail (some name.location)).head.isEof,
        [.queue (.ofList rest.tail (some name.location))]) := by
    change (if (!(TokenQueue.ofList rest.tail (some name.location)).head.isEof &&
      (TokenQueue.ofList rest (some name.location)).head.isEof) = true then _ else _ : Engine _) = _
    rw [lost]
    rfl
  change ((exhausted (move (fuel + 1))
      (TokenQueue.ofList rest (some name.location)).head
      [.queue (.ofList rest.tail (some name.location))] >>= _) >>= fun (found : Found) =>
    pure { handingOut entry name (token :: rest) with
      lookahead := found.token, pending := found.pending, operands := found.operands } :
    Engine _) = _
  rw [looks]
  rfl

theorem Expansion.advance_secondPass (fuel : Nat) (finish : Location)
    (goesOn : ∀ other ∈ token :: rest, other.isEof = false) :
    (secondPass entry name finish (token :: rest)).advance (move (fuel + 2)) =
      pure (secondPass entry name finish rest) := by
  obtain ⟨here, goesOn⟩ := List.forall_mem_cons.mp goesOn
  have goes : ¬ token.isEof = true := by simp [here]
  have reads : readStack (move (fuel + 2))
      [.playback (.handingOut entry name rest), .queue (.ofList [] (some finish))] =
      pure ((secondPass entry name finish rest).lookahead,
        (secondPass entry name finish rest).sources) := by
    cases rest with
    | nil => exact Playback.readStack_ended rfl
    | cons first rest =>
      obtain ⟨first, goesOn⟩ := List.forall_mem_cons.mp goesOn
      rw [Playback.readStack_goesOn first, Playback.fetch_handingOut fuel goesOn, pure_bind]
      rfl
  change (if token.isEof = true then _ else do
    let found ← readStack (move (fuel + 2))
      [.playback (.handingOut entry name rest), .queue (.ofList [] (some finish))]
    return _ : Engine _) = _
  rw [if_neg goes, reads, pure_bind]
  cases rest <;> rfl

theorem TokenStream.delivers_secondPass (finish : Location)
    (goesOn : ∀ token ∈ tokens, token.isEof = false)
    (own : ∀ token ∈ tokens, ∀ other, table.entryFor? token = some other → other = entry) :
    Delivers table True (AtLeast 3) tokens (.expansion (.secondPass entry name finish tokens)) := by
  refine ⟨fun tokens stream => stream = .expansion (.secondPass entry name finish tokens) ∧
    (∀ token ∈ tokens, token.isEof = false) ∧
    ∀ token ∈ tokens, ∀ other, table.entryFor? token = some other → other = entry, ?_,
    rfl, goesOn, own⟩
  rintro _ ⟨_, long, rfl⟩ tokens _ ⟨rfl, goesOn, own⟩
  obtain ⟨fuel, rfl⟩ := Nat.exists_eq_add_of_le' long
  have rests : (Expansion.secondPass entry name finish tokens).Rests table := by
    cases tokens with
    | nil => exact .passed rfl
    | cons token tokens => exact Expansion.rests_secondPass finish (List.forall_mem_cons.mp own).1
  apply (rests.settle (fuel + 1) fuel).image.imp
  rintro _ ⟨_, rfl, rfl⟩
  refine ⟨⟨rfl, goesOn, own⟩, ?_, ?_⟩
  · cases tokens with
    | nil => exact (rfl : (Token.endOfInput _).isEof = true)
    | cons token tokens => exact ⟨rfl, goesOn token (List.mem_cons_self ..)⟩
  · have advanced : (Expansion.secondPass entry name finish tokens).advance
        (move (fuel + 2)) = pure (.secondPass entry name finish tokens.tail) := by
      cases tokens with
      | nil => rfl
      | cons token tokens => exact Expansion.advance_secondPass fuel finish goesOn
    change Yields table True (do
      return TokenStream.expansion (← Expansion.advance (move (fuel + 2)) _)) _
    rw [advanced]
    exact .pure ⟨rfl, fun token member => goesOn token (List.mem_of_mem_tail member),
      fun token member => own token (List.mem_of_mem_tail member)⟩

/-- **A call of the identity macro is a second pass over its argument.** Let the tokens of an
argument be expanded to others in some run with a table that has the identity macro, among any other
macros. If a macro of the table tells where its expansion began, the macros that the argument names
stand on the line of the call. Then the call is expanded, in every run with enough fuel, to what a
second pass over these tokens gives; and if they name no macro, or only the identity macro, this is
the tokens themselves. -/
theorem identity_secondPass {opening closing : Token} {out : List Token}
    (named : table.entryFor? name = some entry) (identity : entry.definition.Identity)
    (opens : opening.isPunctuator "(" = true) (closes : closing.isPunctuator ")" = true)
    (inside : ∀ token ∈ tokens, token.InArgument)
    (beside : table.TellsOrigin → ∀ token ∈ tokens, (table.entryFor? token).isSome = true →
      token.location.line = name.location.line ∧ token.location.file = name.location.file)
    (expands : ExpandsOnce table tokens out) :
    (∀ result, SecondPassGives table entry name out result →
      Expands table (name :: opening :: (tokens ++ [closing])) result) ∧
    ((∀ token ∈ out, ∀ other, table.entryFor? token = some other → other = entry) →
      Expands table (name :: opening :: (tokens ++ [closing])) out) := by
  obtain ⟨fuel, finish, drains⟩ := expands.drains
  have stand : ∀ token ∈ tokens, token.StandsFor table name := by
    intro token member
    refine ⟨(inside token member).2.1, fun called tells => ?_⟩
    obtain ⟨line, file⟩ := beside tells token member called
    simp [originPlace, line, file]
  have delivers := (Expansion.alike_opened stand finish name.location).delivers
    (Likeness.lawful_elsewhere table) (Likeness.supplied_elsewhere table _ 0)
    (fun _ stands => stands.1) drains
  have passes {result : List Token} (gives : SecondPassGives table entry name out result) :=
    expands_of_secondPass named identity opens closes inside delivers drains.goesOn gives
  refine ⟨fun _ => passes, fun own => passes ?_⟩
  obtain ⟨context, _, _, same, _⟩ := drains.choose_spec
  obtain ⟨⟨_, last⟩, next, ran, _, -, rfl⟩ := yields_iff.mp
    ((TokenStream.delivers_secondPass finish drains.goesOn own).drain ⟨3, Nat.le_refl 3, rfl⟩
      (Nat.lt_succ_self _)) context same
  exact ⟨3, finish, _, context, last, next, same, ran⟩

end SecondPass

def Token.onLine (line : Int) (kind : TokenKind) (lexeme : String) : Token :=
  { kind, lexeme, location := ⟨"id.c", line, 1⟩ }

/-- A name on the ninth line. -/
def plainName (lexeme : String) : Token :=
  .onLine 9 .identifier lexeme

def identityMacro : Macro :=
  { flavor := .functionLike, name := "ID", body := [plainName "x"], ops := [.expanded 0 0],
    parameters := [⟨"x", .unknown, false⟩], nameToken := some (plainName "ID"),
    endLocation := .unknown }

theorem identity_identityMacro : identityMacro.Identity :=
  ⟨plainName "ID", ⟨"x", .unknown, false⟩, plainName "x", .unknown, rfl, rfl, rfl, rfl⟩

/-- A macro without parameters. -/
def plainMacro (name : String) (body : List Token) : Macro :=
  { flavor := .objectLike, name, body, ops := [.span 0 body.length],
    nameToken := some (plainName name) }

/-- A call of `ID` on the ninth line. -/
def identityCall (tokens : List Token) : List Token :=
  plainName "ID" :: .onLine 9 .punctuator "(" :: (tokens ++ [.onLine 9 .punctuator ")"])

theorem expandsOnce_of_check {out : List Token} (fuel : Nat)
    (passes : Engine.passes (· == out) (expandTokens fuel tokens .unknown { table }) = true) :
    ExpandsOnce table tokens out := by
  obtain ⟨found, next, ran, same⟩ := Engine.exists_ok_of_check passes
  obtain rfl : found = out := by simpa using same
  exact ⟨fuel, .unknown, { table }, next, rfl, ran⟩

theorem secondPassGives_of_check {entry : Macro.Entry} (fuel : Nat)
    (passes : Engine.passes (·.1 == result)
      ((TokenStream.expansion (.secondPass entry name .unknown tokens)).drain fuel fuel
        { table }) = true) : SecondPassGives table entry name tokens result := by
  obtain ⟨found, next, ran, same⟩ := Engine.exists_ok_of_check passes
  obtain rfl : found.1 = result := by simpa using same
  exact ⟨fuel, .unknown, fuel, { table }, found.2, next, rfl, ran⟩

/-- The macro `A` with the body `ID ( A ) __LINE__`, and the macro `B` with the body `b ID`. -/
def echoTable : MacroTable :=
  ((MacroTable.initial.define identityMacro).define
    (plainMacro "A" (identityCall [plainName "A"] ++ [plainName "__LINE__"]))).define
    (plainMacro "B" [plainName "b", plainName "ID"])

theorem identity_secondPass_echo :
    ExpandsOnce echoTable [plainName "A"] [plainName "A", .onLine 9 .number "9"] ∧
      Expands echoTable (identityCall [plainName "A"])
        (identityCall [plainName "A"] ++ [.onLine 9 .number "9", .onLine 9 .number "9"]) ∧
      Expands echoTable (identityCall [plainName "B"]) [plainName "b", plainName "ID"] := by
  have named : echoTable.entryFor? (plainName "ID") = some ⟨2, identityMacro⟩ := by
    decide +kernel
  have inside (text : String) : ∀ token ∈ [plainName text], token.InArgument := by
    simp [Token.InArgument, plainName, Token.onLine, Token.isEof, Token.isPunctuator]
  have beside (text : String) : ∀ token ∈ [plainName text],
      (echoTable.entryFor? token).isSome = true →
        token.location.line = (plainName "ID").location.line ∧
          token.location.file = (plainName "ID").location.file := by
    simp [plainName, Token.onLine]
  have first : ExpandsOnce echoTable [plainName "A"] [plainName "A", .onLine 9 .number "9"] :=
    expandsOnce_of_check 9 (by decide +kernel)
  have second : ExpandsOnce echoTable [plainName "B"] [plainName "b", plainName "ID"] :=
    expandsOnce_of_check 9 (by decide +kernel)
  have own : ∀ token ∈ [plainName "b", plainName "ID"], ∀ other,
      echoTable.entryFor? token = some other → other = ⟨2, identityMacro⟩ := by
    have unnamed : echoTable.entryFor? (plainName "b") = none := by decide +kernel
    simp [unnamed, named, eq_comm]
  refine ⟨first, ?_, ?_⟩
  · apply (identity_secondPass named identity_identityMacro rfl rfl (inside "A")
      (fun _ => beside "A") first).1
    exact secondPassGives_of_check 9 (by decide +kernel)
  · exact (identity_secondPass named identity_identityMacro rfl rfl (inside "B")
      (fun _ => beside "B") second).2 own

/-- A call of the identity macro may give other tokens than its argument gives by itself: `x` comes
twice if `A` stands for `A x`; a directive leaves the call unclosed; and a line is counted where the
call is, not where the argument is. -/
theorem identity_not_transparent :
    let table := MacroTable.initial.define identityMacro
    let again := table.define (plainMacro "A" [plainName "A", plainName "x"])
    let directive := Token.onLine 9 .directive "#"
    let line := Token.onLine 10 .identifier "__LINE__"
    (ExpandsOnce again [plainName "A"] [plainName "A", plainName "x"] ∧
      ExpandsOnce again (identityCall [plainName "A"])
        [plainName "A", plainName "x", plainName "x"]) ∧
    (ExpandsOnce table [directive] [directive] ∧
      ExpandsOnce table (identityCall [directive]) (identityCall [directive])) ∧
    (ExpandsOnce table [line] [.onLine 10 .number "10"] ∧
      ExpandsOnce table (identityCall [line]) [.onLine 10 .number "9"]) :=
  ⟨⟨expandsOnce_of_check 9 (by decide +kernel), expandsOnce_of_check 9 (by decide +kernel)⟩,
    ⟨expandsOnce_of_check 9 (by decide +kernel), expandsOnce_of_check 9 (by decide +kernel)⟩,
    expandsOnce_of_check 9 (by decide +kernel), expandsOnce_of_check 9 (by decide +kernel)⟩

end Preproc
