import Preproc.Proofs.Expansion.Delivery
import Preproc.Proofs.Regime.Basic

/-! # Beginning invocations by rules

An expansion is settled in one way, whatever is to be shown of it: a name is looked up, the newlines
after it are skipped, its arguments are collected, and an invocation begins or the name stays.
`Logic.Calls` are the rules for the stacks that are met on this way. Where they hold of a judgement,
settling keeps what they say of expansions.

Main statement: `Regime.Logic.Calls.settle`.
-/

namespace Preproc

open TokenStream (Mover readStack peekStack readWith peekWith)

namespace Expansion

/-- The expansion with the origin of an invocation that begins at its next token. -/
def rooted (expansion : Expansion TokenStream) : Expansion TokenStream :=
  if expansion.sources.length == 1 && expansion.inherited.isNone then
    { expansion with origin := some expansion.lookahead }
  else expansion

variable {expansion : Expansion TokenStream}

theorem attempt_eq (move : Mover) (fuel : Nat) (expansion : Expansion TokenStream) :
    expansion.attempt move fuel =
      if !expansion.lookahead.isIdentifier || expansion.leftAlone then return .stays expansion
      else do
        match ← Engine.entry? expansion.lookahead.lexeme with
        | none => return .stays expansion
        | some entry => do
          if isBusy entry (← busyOnTop expansion.sources) then return .stays expansion
          if entry.definition.isFunctionLike then
            expansion.rooted.attemptCall move fuel entry (expansion.sources.length == 1)
          else
            let around ← busyOnTop (retireFinished expansion.rooted.sources)
            return .again (← expansion.rooted.begin move
              { entry, nameToken := expansion.lookahead, origin := expansion.rooted.origin,
                outermost := expansion.sources.length == 1,
                lookahead := .endOfInput expansion.lookahead.location } around
              (retireFinished expansion.rooted.sources)) :=
  rfl

@[simp] theorem sources_rooted : expansion.rooted.sources = expansion.sources := by
  unfold rooted
  split <;> rfl

@[simp] theorem lookahead_rooted : expansion.rooted.lookahead = expansion.lookahead := by
  unfold rooted
  split <;> rfl

@[simp] theorem leftAlone_rooted : expansion.rooted.leftAlone = expansion.leftAlone := by
  unfold rooted
  split <;> rfl

@[simp] theorem inherited_rooted : expansion.rooted.inherited = expansion.inherited := by
  unfold rooted
  split <;> rfl

/-- The invocation of a macro that begins at the next token. -/
def invocation (expansion : Expansion TokenStream) (entry : Macro.Entry) (arguments : Arguments) :
    Playback TokenStream :=
  { entry, nameToken := expansion.lookahead, origin := expansion.origin, arguments,
    outermost := expansion.sources.length == 1,
    lookahead := .endOfInput expansion.lookahead.location }

end Expansion

/-! ### Arguments -/

/-- Arguments without an end among them, whose spans lie inside them up to the last token. -/
structure Arguments.Spanned (arguments : Arguments) : Prop where
  endless : ∀ token ∈ arguments.tokens, token.isEof = false
  inside : ∀ span ∈ arguments.spans,
    0 ≤ span.1 ∧ span.1 ≤ span.2 ∧ span.2 ≤ arguments.tokens.length
  final : ∀ span ∈ arguments.spans.getLast?, span.2 = arguments.tokens.length

theorem Arguments.Spanned.adjust {arguments : Arguments} (spanned : arguments.Spanned)
    (definition : Macro) : (definition.adjustArguments arguments).Spanned := by
  unfold Macro.adjustArguments
  split
  · split
    · exact ⟨spanned.endless, by simp, by simp⟩
    · exact spanned
  · exact spanned

theorem tokens_adjustArguments (definition : Macro) (arguments : Arguments) :
    (definition.adjustArguments arguments).tokens = arguments.tokens := by
  unfold Macro.adjustArguments
  split
  · split <;> rfl
  · rfl

theorem Macro.lt_length_of_acceptsCount {definition : Macro} {index : Int} {count : Nat}
    (accepted : definition.acceptsCount count = true) (counted : index < definition.parameterCount)
    (named : (definition.isVariadic && index + 1 == definition.parameterCount) = false) :
    index < count := by
  unfold Macro.acceptsCount Macro.requiredArguments at accepted
  cases variadic : definition.isVariadic with
  | false =>
    simp [variadic] at accepted
    omega
  | true =>
    simp [variadic] at accepted named
    omega

/-- Arguments of which there are as many as a macro takes, or none where it takes none. -/
def Arguments.Fit (arguments : Arguments) (definition : Macro) : Prop :=
  arguments.Spanned ∧ definition.acceptsCount arguments.spans.length = true ∨
    definition.isFunctionLike = false ∧ arguments = {}

/-- What is kept of arguments while they are collected: their tokens are good ones, and spans lie
inside them. -/
structure Collecting.Orderly (good : Token → Prop) (state : Collecting) : Prop where
  good : ∀ token ∈ state.tokens, good token
  endless : ∀ token ∈ state.tokens, token.isEof = false
  inside : ∀ span ∈ state.spans, 0 ≤ span.1 ∧ span.1 ≤ span.2 ∧ span.2 ≤ state.tokens.size
  started : state.first ≤ state.tokens.size

namespace Collecting

variable {good : Token → Prop} {state : Collecting} {token : Token}

theorem Orderly.empty : Orderly good {} where
  good := by simp
  endless := by simp
  inside := by simp
  started := Nat.le_refl 0

theorem Orderly.endArgument (orderly : state.Orderly good) :
    ∀ span ∈ state.endArgument.spans,
      0 ≤ span.1 ∧ span.1 ≤ span.2 ∧ span.2 ≤ state.tokens.size := by
  intro span member
  obtain among | rfl := Array.mem_push.mp member
  · exact orderly.inside span among
  · exact ⟨Int.natCast_nonneg _, Int.ofNat_le.mpr orderly.started, Int.le_refl _⟩

theorem Orderly.take (orderly : state.Orderly good) (isGood : good token)
    (goesOn : token.isEof = false) : (state.take token).Orderly good := by
  have pushed {property : Token → Prop} (kept : ∀ token ∈ state.tokens, property token)
      (next : property token) : ∀ other ∈ state.tokens.push token, property other := by
    intro other member
    obtain among | rfl := Array.mem_push.mp member
    · exact kept other among
    · exact next
  have grown {span : Int × Int} (inside : 0 ≤ span.1 ∧ span.1 ≤ span.2 ∧
      span.2 ≤ state.tokens.size) :
      0 ≤ span.1 ∧ span.1 ≤ span.2 ∧ span.2 ≤ (state.tokens.push token).size := by
    rw [Array.size_push]
    omega
  have started := orderly.started
  unfold Collecting.take
  split
  · refine ⟨pushed orderly.good isGood, pushed orderly.endless goesOn,
      fun span member => grown (orderly.endArgument span member), ?_⟩
    simp [Collecting.endArgument]
  · refine ⟨pushed orderly.good isGood, pushed orderly.endless goesOn,
      fun span member => grown (orderly.inside span member), ?_⟩
    simp only [Array.size_push]
    omega

theorem Orderly.closed (orderly : state.Orderly good) :
    Arguments.Spanned { tokens := state.endArgument.tokens.toList
                        spans := state.endArgument.spans.toList } where
  endless token member := orderly.endless token (by simpa [Collecting.endArgument] using member)
  inside span member := by
    have inside := orderly.endArgument span (by simpa using member)
    simpa [Collecting.endArgument] using inside
  final span last := by
    simp only [Collecting.endArgument, Array.toList_push, List.getLast?_concat,
      Option.mem_some_iff] at last
    subst last
    simp [Collecting.endArgument]

end Collecting

namespace Regime.Logic

open Expansion

variable {regime : Regime}

/-- The rules for the stacks that are met while invocations begin: what is kept of an expansion, and
of one whose next token stays; of a stack from which a call of a macro is being read, of one that
shows a token then, and of one on which the macro may begin; and of the tokens that are read. -/
structure Calls (logic : regime.Logic) (move : Mover) where
  Holds : Expansion TokenStream → Prop
  Rests : Expansion TokenStream → Prop := Holds
  Reading : Macro.Entry → Expansion TokenStream → List TokenStream → Prop
  Showing : Macro.Entry → Expansion TokenStream → Token → List TokenStream → Prop
  Ready : Macro.Entry → Expansion TokenStream → List TokenStream → Prop
  Good : Expansion TokenStream → Token → Prop
  rests : ∀ {expansion}, Holds expansion → Rests expansion := by exact id
  outOfFuel : regime.failure .outOfFuel
  present : ∀ {expansion}, Holds expansion →
    expansion.sources ≠ [] ∨ regime.failure (.internal .emptyStack)
  ready_present : ∀ {entry expansion streams}, Ready entry expansion streams →
    streams ≠ [] ∨ regime.failure (.internal .emptyStack)
  start : ∀ {entry expansion top below}, Holds expansion →
    expansion.lookahead.isIdentifier = true → regime.entry entry →
    expansion.sources = top :: below → isBusy entry top.busy = false →
    Reading entry expansion.rooted expansion.sources ∧
      Ready entry expansion.rooted (retireFinished expansion.sources)
  peek : ∀ entry expansion streams, logic.Keeps (Reading entry expansion streams)
    (peekStack move streams) fun found => Showing entry expansion found.1 found.2
  reading : ∀ {entry expansion token streams}, Showing entry expansion token streams →
    Reading entry expansion streams
  good : ∀ {entry expansion token streams}, Showing entry expansion token streams →
    token.kind ≠ .directive → Good expansion token
  read : ∀ entry expansion token streams, token.isEof = false → token.kind ≠ .directive →
    logic.Keeps (Showing entry expansion token streams) (readStack move streams) fun found =>
      Good expansion found.1 ∧ Reading entry expansion found.2 ∧ Ready entry expansion found.2
  stays : ∀ {entry expansion streams}, Reading entry expansion streams →
    Rests { expansion with sources := streams }
  replays : ∀ {entry expansion token streams tokens}, Showing entry expansion token streams →
    token.isEof = true ∨ token.kind = .directive → (∀ token ∈ tokens, Good expansion token) →
    Rests { expansion with leftAlone := true, sources := replay tokens streams }
  begins : ∀ entry expansion arguments around streams, logic.Keeps
    ((Ready entry expansion streams ∧ ∃ top below, streams = top :: below ∧ around = top.busy) ∧
      (∀ token ∈ arguments.tokens, Good expansion token) ∧ arguments.Fit entry.definition)
    (expansion.begin move (expansion.invocation entry arguments) around streams) Holds
  skips : ∀ entry expansion streams, logic.Keeps (Reading entry expansion streams)
    (readStack move streams) fun found =>
      Holds { expansion with lookahead := found.1, sources := found.2 }

namespace Calls

variable {logic : regime.Logic} {move : Mover} (calls : logic.Calls move) {given : Prop}

/-- What is kept of an attempt. -/
def Attempted : Attempt → Prop
  | .stays expansion => calls.Rests expansion
  | .again expansion => calls.Holds expansion

/-- What is kept of collected arguments and of what is left after them. -/
def Leaves (entry : Macro.Entry) (expansion : Expansion TokenStream) (streams : List TokenStream) :
    Collected → Prop
  | .closed arguments => (∀ token ∈ arguments.tokens, calls.Good expansion token) ∧
    arguments.Spanned ∧
      calls.Reading entry expansion streams ∧ calls.Ready entry expansion streams
  | .unclosed tokens => (∀ token ∈ tokens, calls.Good expansion token) ∧
      ∃ token, calls.Showing entry expansion token streams ∧
        (token.isEof = true ∨ token.kind = .directive)

omit calls in
theorem busyOnTop (streams : List TokenStream)
    (present : given → streams ≠ [] ∨ regime.failure (.internal .emptyStack)) :
    logic.Keeps given (busyOnTop streams) fun busy =>
      ∃ top below, streams = top :: below ∧ busy = top.busy := by
  cases streams with
  | nil => exact logic.throw fun holds => (present holds).resolve_left fun absent => absent rfl
  | cons top below => exact logic.pure fun _ => ⟨top, below, rfl, rfl⟩

theorem skipNewlines (fuel : Nat) (entry : Macro.Entry) (expansion : Expansion TokenStream)
    (streams : List TokenStream) :
    logic.Keeps (calls.Reading entry expansion streams)
      (Stack.skipNewlines (readWith move) (peekWith move) fuel streams)
      (calls.Reading entry expansion) := by
  induction fuel generalizing streams with
  | zero => exact logic.throw fun _ => calls.outOfFuel
  | succ fuel ih =>
    refine logic.bind (calls.peek entry expansion streams) id ?_
    rintro ⟨token, peeked⟩
    dsimp only
    split
    next newline =>
      have kind : token.kind = .newline := beq_iff_eq.mp newline
      refine logic.bind (calls.read entry expansion token peeked (by simp [Token.isEof, kind])
        (by simp [kind])) And.right ?_
      rintro ⟨_, rest⟩
      exact (ih rest).imp (fun given => given.2.2.1) fun _ _ => id
    · exact logic.pure fun given => calls.reading given.2

theorem collectArguments (fuel : Nat) (entry : Macro.Entry) (expansion : Expansion TokenStream)
    (state : Collecting) (streams : List TokenStream) :
    logic.Keeps (state.Orderly (calls.Good expansion) ∧ calls.Reading entry expansion streams)
      (collectArguments move fuel state streams)
      fun found => calls.Leaves entry expansion found.2 found.1 := by
  induction fuel generalizing state streams with
  | zero => exact logic.throw fun _ => calls.outOfFuel
  | succ fuel ih =>
    refine logic.bind (calls.peek entry expansion streams) And.right ?_
    rintro ⟨token, peeked⟩
    dsimp only
    split
    next stops =>
      refine logic.pure fun given => ⟨fun token member => ?_, token, given.2, by simpa using stops⟩
      exact given.1.1.good token (by simpa using member)
    next goesOn =>
      simp only [Bool.or_eq_true, not_or, Bool.not_eq_true, beq_eq_false_iff_ne] at goesOn
      refine logic.bind (calls.read entry expansion token peeked goesOn.1 goesOn.2) And.right ?_
      rintro ⟨_, rest⟩
      split
      · exact (ih state rest).imp (fun given => ⟨given.1.1.1, given.2.2.1⟩) fun _ _ => id
      split
      · refine logic.pure fun given => ⟨fun token member => ?_, given.1.1.1.closed, given.2.2⟩
        exact given.1.1.1.good token (by simpa [Collecting.endArgument] using member)
      · refine (ih (state.take token) rest).imp (fun given => ⟨?_, given.2.2.1⟩) fun _ _ => id
        exact given.1.1.1.take (calls.good given.1.2 goesOn.2) goesOn.1

theorem attemptCall (fuel : Nat) (entry : Macro.Entry) (expansion : Expansion TokenStream) :
    logic.Keeps (calls.Reading entry expansion expansion.sources)
      (expansion.attemptCall move fuel entry (expansion.sources.length == 1)) calls.Attempted := by
  refine logic.bind (calls.skipNewlines fuel entry expansion _) id fun skipped => ?_
  refine logic.bind (calls.peek entry expansion skipped) And.right ?_
  rintro ⟨next, peeked⟩
  dsimp only
  split
  · refine logic.bind (logic.trace _) id fun _ => logic.pure fun given => ?_
    exact calls.stays (calls.reading given.1.2)
  next opens =>
  have kind : next.kind = .punctuator := by simp_all [Token.isPunctuator]
  refine logic.bind (calls.read entry expansion next peeked (by simp [Token.isEof, kind])
    (by simp [kind])) And.right ?_
  rintro ⟨parenthesis, inside⟩
  refine logic.bind (calls.collectArguments fuel entry expansion {} inside)
    (fun given => ⟨.empty, given.2.2.1⟩) ?_
  rintro ⟨collected, rest⟩
  cases collected with
  | unclosed tokens =>
    refine logic.bind (logic.report _ (by simp)) id fun _ => logic.pure fun given => ?_
    obtain ⟨good, token, shows, stops⟩ := given.1.2
    exact calls.replays shows stops (List.forall_mem_cons.mpr ⟨given.1.1.2.1, good⟩)
  | closed arguments =>
    dsimp only
    split
    next accepted =>
      refine logic.bind (busyOnTop rest fun given => calls.ready_present given.2.2.2.2) id
        fun around => ?_
      refine logic.bind (calls.begins entry expansion _ around rest) ?_ fun _ =>
        logic.pure And.right
      rintro ⟨⟨_, good, spanned, _, ready⟩, top⟩
      refine ⟨⟨ready, top⟩, ?_, .inl ⟨spanned.adjust _, accepted⟩⟩
      rwa [tokens_adjustArguments]
    · refine logic.bind (logic.report _ (by simp)) id fun _ => ?_
      refine logic.bind (calls.skips entry expansion rest) (fun given => given.1.2.2.2.1) ?_
      rintro ⟨lookahead, rest'⟩
      exact logic.pure And.right

theorem attempt (fuel : Nat) (expansion : Expansion TokenStream) :
    logic.Keeps (calls.Holds expansion) (expansion.attempt move fuel) calls.Attempted := by
  rw [attempt_eq]
  split
  · exact logic.pure calls.rests
  next passed =>
  have named : expansion.lookahead.isIdentifier = true := by simp_all
  refine logic.bind (logic.lookup _) id fun found => ?_
  cases found with
  | none => exact logic.pure fun given => calls.rests given.1
  | some entry =>
    refine logic.bind (busyOnTop expansion.sources fun given => calls.present given.1) id
      fun busy => ?_
    split
    · exact logic.pure fun given => calls.rests given.1.1
    next idle =>
    have starts (given : (calls.Holds expansion ∧ ∀ other ∈ some entry, regime.entry other) ∧
        ∃ top below, expansion.sources = top :: below ∧ busy = top.busy) :=
      given.2.elim fun top stack => stack.elim fun below same =>
        calls.start given.1.1 named (given.1.2 entry rfl) same.1 (by simpa [same.2] using idle)
    split
    · have called := calls.attemptCall fuel entry expansion.rooted
      rw [sources_rooted] at called
      exact called.imp (fun given => (starts given).1) fun _ _ => id
    next objectLike =>
      rw [sources_rooted]
      refine logic.bind (busyOnTop _ fun given => calls.ready_present (starts given).2) id
        fun around => ?_
      have begins := calls.begins entry expansion.rooted {} around
        (retireFinished expansion.sources)
      unfold Expansion.invocation at begins
      rw [lookahead_rooted, sources_rooted] at begins
      refine logic.bind begins ?_ fun _ => logic.pure And.right
      exact fun given => ⟨⟨(starts given.1).2, given.2⟩, by simp,
        .inr ⟨by simpa using objectLike, rfl⟩⟩

/-- **Settling by rules.** -/
theorem settle (fuel : Nat) (expansion : Expansion TokenStream) :
    logic.Keeps (calls.Holds expansion) (expansion.settle move fuel) calls.Rests := by
  induction fuel generalizing expansion with
  | zero => exact logic.throw fun _ => calls.outOfFuel
  | succ fuel ih =>
    refine logic.bind (calls.attempt fuel expansion) id fun attempted => ?_
    cases attempted with
    | stays expansion => exact logic.pure And.right
    | again expansion => exact (ih expansion).imp And.right fun _ _ => id

end Calls

end Regime.Logic

end Preproc
