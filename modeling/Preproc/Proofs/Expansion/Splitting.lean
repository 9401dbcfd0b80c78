import Preproc.Proofs.Expansion.Arguments
import Preproc.Proofs.Expansion.Steady

/-! # Where collecting stops

Collecting the arguments of a call looks at the next token of a stack of streams and then reads it.
What it reads is what it saw, since a stream that has been settled stays settled, an expansion
inside other streams too. So the tokens taken decide alone where collecting stops and how the
arguments are split.

Main statements: `TokenStream.stable_move` and `collectArguments_splits`.
-/

namespace Preproc

open Engine (Grants Steady)
open Regime (lawful_any)
open TokenStream (move Mover readStack peekStack readWith peekWith)

theorem Engine.Steady.keeps {α : Type} {action : Engine α} (steady : Steady action)
    (table : MacroTable) : Grants table True action fun _ => True :=
  steady.grants fun _ _ _ _ _ => trivial

theorem Engine.Grants.and {α : Type} {action : Engine α} {table : MacroTable} {loud : Prop}
    {condition condition' : α → Prop} (grants : Grants table loud action condition)
    (grants' : Grants table loud action condition') :
    Grants table loud action fun value => condition value ∧ condition' value := by
  refine fun sink => ⟨fun start ran => ?_, fun _ _ => trivial⟩
  obtain ⟨kept, holds⟩ := (grants sink).done start ran
  exact ⟨kept, holds, ((grants' sink).done start ran).2⟩

namespace TokenStream

/-- A way to move streams that leaves the table alone, and under which a settled stream, settled
again, shows the same token. -/
structure Stable (table : MacroTable) (move : Mover) : Prop where
  steady : Regime.steady.Moves move
  again : ∀ stream, Grants table True (move .settle stream) fun settled =>
    Grants table True (move .settle settled) (·.head = settled.head)

/-- A stack of streams shows a token whenever it is looked at. -/
def Showing (table : MacroTable) (move : Mover) (token : Token) (streams : List TokenStream) :
    Prop :=
  Grants table True (peekStack move streams) (·.1 = token)

variable {table : MacroTable} {move : Mover} (stable : Stable table move)

include stable

theorem Stable.peekWith (stream : TokenStream) :
    Grants table True (peekWith move stream) fun shown =>
      Grants table True (TokenStream.peekWith move shown.2) (·.1 = shown.1) ∧
        Grants table True (readWith move shown.2) (·.1 = shown.1) :=
  .bind (stable.again stream) fun _ same => .pure
    ⟨.bind same fun _ alike => .pure alike,
      .bind same fun _ alike => .bind ((stable.steady _ _).keeps table) fun _ _ => .pure alike⟩

theorem Stable.peekStack (streams : List TokenStream) :
    Grants table True (peekStack move streams) fun shown =>
      shown.2 ≠ [] ∧ Showing table move shown.1 shown.2 ∧
        Grants table True (readStack move shown.2) (·.1 = shown.1) := by
  induction streams with
  | nil => exact .throw trivial
  | cons top below ih =>
    cases below with
    | nil =>
      refine .bind (stable.peekWith top) fun shown again => .pure ⟨List.cons_ne_nil _ _, ?_, ?_⟩
      · exact .bind again.1 fun _ alike => .pure alike
      · exact .bind again.2 fun _ alike => .pure alike
    | cons second below =>
      refine .bind (stable.peekWith top) fun shown again => ?_
      obtain ⟨token, settled⟩ := shown
      -- The stack under the top one is looked at only if the top one is exhausted, both times.
      cases done : token.isEof with
      | true =>
        simp only [done, ↓reduceIte]
        refine .bind ih fun found rest => .pure ⟨List.cons_ne_nil _ _, ?_⟩
        obtain ⟨found, _ | ⟨next, others⟩⟩ := found
        · exact absurd rfl rest.1
        refine ⟨.bind again.1 fun value alike => ?_, .bind again.2 fun value alike => ?_⟩
        · simp only [alike, done, ↓reduceIte]
          exact .bind rest.2.1 fun _ same => .pure same
        · simp only [alike, done, ↓reduceIte]
          exact rest.2.2
      | false =>
        simp only [done, Bool.false_eq_true, ↓reduceIte]
        refine .pure ⟨List.cons_ne_nil _ _, .bind again.1 fun value alike => ?_,
          .bind again.2 fun value alike => ?_⟩
        all_goals
          simp only [alike, done, Bool.false_eq_true, ↓reduceIte]
          exact .pure rfl

theorem Stable.showing_peek {token : Token} {streams : List TokenStream}
    (showing : Showing table move token streams) :
    Grants table True (TokenStream.peekStack move streams) fun shown =>
      shown.1 = token ∧ Showing table move token shown.2 :=
  (showing.and (stable.peekStack streams)).imp fun _ holds =>
    ⟨holds.1, holds.1 ▸ holds.2.2.1⟩

theorem Stable.skipNewlines (fuel : Nat) (streams : List TokenStream) :
    Grants table True (Stack.skipNewlines (readWith move) (TokenStream.peekWith move) fuel streams)
      fun rest => ∃ token, token.kind ≠ .newline ∧ Showing table move token rest := by
  induction fuel generalizing streams with
  | zero => exact .throw trivial
  | succ fuel ih =>
    refine .bind (stable.peekStack streams) fun shown holds => ?_
    dsimp only
    split
    · exact .bind (Steady.keeps (lawful_any.readStack stable.steady _) table) fun _ _ => ih _
    next other => exact .pure ⟨shown.1, by simpa using other, holds.2.1⟩

end TokenStream

namespace Expansion

open TokenStream (Stable Showing)

variable {table : MacroTable} {move : Mover} (stable : Stable table move)

/-- An expansion whose next token stays, however often it is looked at. -/
def Staying (table : MacroTable) (move : Mover) (expansion : Expansion TokenStream) : Prop :=
  ∀ fuel, Grants table True (expansion.attempt move fuel) fun attempt =>
    ∃ again, attempt = .stays again ∧ again.lookahead = expansion.lookahead

include stable

theorem stays_attemptCall {expansion : Expansion TokenStream} {next : Token}
    (showing : Showing table move next expansion.sources) (other : next.isPunctuator "(" = false)
    (noNewline : next.kind ≠ .newline) (fuel : Nat) (entry : Macro.Entry) (outermost : Bool) :
    Grants table True (expansion.attemptCall move fuel entry outermost) fun attempt =>
      ∃ again, attempt = .stays again ∧ again.lookahead = expansion.lookahead := by
  have skips : Grants table True
      (Stack.skipNewlines (readWith move) (peekWith move) fuel expansion.sources)
      (Showing table move next) := by
    cases fuel with
    | zero => exact .throw trivial
    | succ fuel =>
      refine .bind (stable.showing_peek showing) fun shown holds => ?_
      simp only [holds.1, beq_iff_eq, noNewline, ↓reduceIte]
      exact .pure holds.2
  refine .bind skips fun rest shows => .bind (stable.showing_peek shows) fun shown holds => ?_
  simp only [holds.1, other, Bool.not_false, ↓reduceIte]
  exact .bind (.trace _) fun _ _ => .pure ⟨_, rfl, rfl⟩

/-- The next token stays if it is no name of a macro, or was left alone, or if the macro is busy, or
is called with something else than a parenthesis. -/
theorem staying_of_rests {expansion : Expansion TokenStream}
    (rests : (!expansion.lookahead.isIdentifier || expansion.leftAlone) = true ∨
      ∀ entry top below, table.entry? expansion.lookahead.lexeme = some entry →
        expansion.sources = top :: below → isBusy entry top.busy = true ∨
          entry.definition.isFunctionLike = true ∧ ∃ next, next.isPunctuator "(" = false ∧
            next.kind ≠ .newline ∧ Showing table move next expansion.sources) :
    expansion.Staying table move := by
  intro fuel
  unfold attempt
  dsimp only
  split
  · exact .pure ⟨_, rfl, rfl⟩
  next named =>
  refine .bind (.lookup _) fun found known => ?_
  cases found with
  | none => exact .pure ⟨_, rfl, rfl⟩
  | some entry =>
    cases stack : expansion.sources with
    | nil => exact .throw trivial
    | cons top below =>
    refine .bind (.pure rfl) fun busy around => ?_
    subst around
    split
    · exact .pure ⟨_, rfl, rfl⟩
    next idle =>
    obtain ⟨function, next, other, noNewline, showing⟩ :=
      ((rests.resolve_left named) entry top below known.symm stack).resolve_left idle
    rw [if_pos function]
    split
    · exact stays_attemptCall stable (stack ▸ showing) other noNewline _ _ _
    · exact stays_attemptCall stable showing other noNewline _ _ _

theorem staying_attemptCall (fuel : Nat) {expansion : Expansion TokenStream} {entry : Macro.Entry}
    (known : table.entry? expansion.lookahead.lexeme = some entry)
    (function : entry.definition.isFunctionLike = true) :
    Grants table True (expansion.attemptCall move fuel entry (expansion.sources.length == 1))
      fun attempt => ∀ stays, attempt = .stays stays → stays.Staying table move := by
  refine .bind (stable.skipNewlines fuel _) fun rest shows => ?_
  obtain ⟨token, noNewline, shows⟩ := shows
  refine .bind (stable.showing_peek shows) fun shown holds => ?_
  obtain ⟨rfl, shows⟩ := holds
  dsimp only
  split
  next other =>
    refine .bind (.trace _) fun _ _ => .pure fun stays same => ?_
    cases same
    refine staying_of_rests stable (.inr fun found _ _ known' _ => .inr ⟨?_, ?_⟩)
    · cases known.symm.trans known'
      exact function
    · exact ⟨shown.1, by simpa using other, noNewline, shows⟩
  · refine .bind (Steady.keeps (lawful_any.readStack stable.steady _) table) fun read _ => ?_
    refine .bind (Steady.keeps ((lawful_any.calls stable.steady).collectArguments _ entry expansion
      _ _) table) fun collected _ => ?_
    obtain ⟨collected, sources⟩ := collected
    cases collected with
    | unclosed tokens =>
      refine .bind (.report trivial _ _) fun _ _ => .pure fun stays same => ?_
      cases same
      exact staying_of_rests stable (.inl (by simp))
    | closed arguments =>
      dsimp only
      split
      · refine .bind ((steady_busyOnTop _).keeps table) fun _ _ => ?_
        refine .bind (Steady.keeps ((lawful_any.calls stable.steady).begins entry expansion _ _ _)
          table) fun _ _ => .pure ?_
        rintro _ ⟨⟩
      · refine .bind (.report trivial _ _) fun _ _ => ?_
        refine .bind (Steady.keeps (lawful_any.readStack stable.steady _) table) fun _ _ =>
          .pure ?_
        rintro _ ⟨⟩

theorem staying_attempt (fuel : Nat) (expansion : Expansion TokenStream) :
    Grants table True (expansion.attempt move fuel) fun attempt =>
      ∀ stays, attempt = .stays stays → stays.Staying table move := by
  rw [attempt_eq]
  split
  next alone =>
    refine .pure fun stays same => ?_
    cases same
    exact staying_of_rests stable (.inl alone)
  refine .bind (.lookup _) fun found known => ?_
  cases found with
  | none =>
    refine .pure fun stays same => ?_
    cases same
    exact staying_of_rests stable (.inr fun entry _ _ known' _ => by cases known.trans known')
  | some entry =>
    cases stack : expansion.sources with
    | nil => exact .throw trivial
    | cons top below =>
    refine .bind (.pure rfl) fun busy around => ?_
    subst around
    split
    next idle =>
      refine .pure fun stays same => ?_
      cases same
      refine staying_of_rests stable (.inr fun found top' below' known' stack' => .inl ?_)
      cases known.trans known'
      cases stack.symm.trans stack'
      exact idle
    split
    next function =>
      have rooted : table.entry? expansion.rooted.lookahead.lexeme = some entry := by
        rw [lookahead_rooted]
        exact known.symm
      have called := staying_attemptCall stable fuel rooted function
      rwa [sources_rooted, stack] at called
    · refine .bind ((steady_busyOnTop _).keeps table) fun _ _ => ?_
      have begins := (lawful_any.calls stable.steady).begins entry expansion.rooted {}
      unfold Expansion.invocation at begins
      rw [lookahead_rooted, sources_rooted, stack] at begins
      refine .bind (Steady.keeps (begins _ _) table) fun _ _ => .pure ?_
      rintro _ ⟨⟩

theorem staying_settle (fuel : Nat) (expansion : Expansion TokenStream) :
    Grants table True (expansion.settle move fuel) (Staying table move) := by
  induction fuel generalizing expansion with
  | zero => exact .throw trivial
  | succ fuel ih =>
    refine .bind (staying_attempt stable fuel expansion) fun attempt holds => ?_
    cases attempt with
    | stays stays => exact .pure (holds stays rfl)
    | again next => exact ih next

end Expansion

/-- **A settled stream stays settled**: however deep in other streams it is, it shows the same token
when it is looked at again. -/
theorem TokenStream.stable_move (table : MacroTable) (fuel : Nat) : Stable table (move fuel) := by
  induction fuel with
  | zero => exact ⟨fun _ _ => .throw _, fun _ => .throw trivial⟩
  | succ fuel ih =>
    refine ⟨steady_move _, fun stream => ?_⟩
    cases stream with
    | expansion expansion =>
      refine .bind (Expansion.staying_settle ih fuel expansion) fun settled stays => .pure ?_
      suffices settles : Grants table True (settled.settle (move fuel) fuel)
          (·.lookahead = settled.lookahead) from .bind settles fun _ same => .pure same
      cases fuel with
      | zero => exact .throw trivial
      | succ fuel =>
        refine .bind (stays fuel) fun attempt holds => ?_
        obtain ⟨again, rfl, same⟩ := holds
        exact .pure same
    | _ => exact .pure (.pure rfl)

section Collects

variable {move : Mover} {state : Collecting} {bound : Nat} {sources rest : List TokenStream}
  {context last : Context}

/-- **Where collecting stops**: it takes tokens of the stack up to the first that closes the call,
or up to where the input ends or a directive begins. -/
theorem collectArguments_ok_iff
    (same : ∀ sources context token shown next given rest last,
      peekStack move sources context = .ok (token, shown) next →
        readStack move shown next = .ok (given, rest) last → given = token)
    {found : Collected} :
    collectArguments move bound state sources context = .ok (found, rest) last ↔
      ∃ inside middle next, inside.length < bound ∧
        Consumes move inside sources context middle next ∧ (∀ token ∈ inside, token.GoesOn) ∧
        (depthAfter state.depth inside).isSome ∧
        (state.takeAll inside).Ends move middle next rest last found := by
  constructor
  · intro ran
    induction bound generalizing state sources context with
    | zero => cases ran
    | succ bound ih =>
      obtain ⟨⟨token, shown⟩, next, shows, ran⟩ := Engine.bind_ok_iff.mp ran
      dsimp only at ran
      split at ran
      next stops =>
        cases ran
        exact ⟨[], sources, context, Nat.succ_pos _, .nil, by simp, rfl,
          .unclosed shows (by simpa using stops)⟩
      next goesOn =>
      obtain ⟨⟨given, rest'⟩, middle, reads, ran⟩ := Engine.bind_ok_iff.mp ran
      cases same _ _ _ _ _ _ _ _ shows reads
      by_cases closes : state.closedBy token = true
      · obtain ⟨flat, isClosing⟩ : state.depth = 0 ∧ token.isPunctuator ")" = true := by
          simpa [Collecting.closedBy] using closes
        have noNewline := (Token.inside_of_isPunctuator isClosing).2.1
        rw [if_neg (by simpa using noNewline), if_pos closes] at ran
        cases ran
        exact ⟨[], sources, context, Nat.succ_pos _, .nil, by simp, rfl,
          .closed (.cons shows reads .nil) isClosing flat⟩
      · have ran : collectArguments move bound (state.meet token) rest' middle =
            .ok (found, rest) last := by
          rw [← ran, Collecting.meet]
          split <;> rfl
        obtain ⟨inside, after, later, short, consumes, goOn, isOpen, ends⟩ := ih ran
        refine ⟨token :: inside, after, later, Nat.succ_lt_succ short, .cons shows reads consumes,
          List.forall_mem_cons.mpr ⟨by simpa [Token.GoesOn] using goesOn, goOn⟩, ?_, ends⟩
        rw [depthAfter, if_neg (by simpa [Collecting.closedBy] using closes),
          ← Collecting.depth_meet]
        exact isOpen
  · rintro ⟨inside, middle, next, short, consumes, goOn, isOpen, ends⟩
    obtain ⟨more, rfl⟩ : ∃ more, bound = more + 1 + inside.length :=
      ⟨bound - 1 - inside.length, by omega⟩
    rw [collectArguments_consumes consumes goOn isOpen, ends.collects]

end Collects

theorem consumes_append_iff {move : Mover} {tokens more : List Token}
    {sources rest : List TokenStream} {context last : Context} :
    Consumes move (tokens ++ more) sources context rest last ↔ ∃ middle next,
      Consumes move tokens sources context middle next ∧
        Consumes move more middle next rest last := by
  constructor
  · intro consumes
    induction tokens generalizing sources context with
    | nil => exact ⟨sources, context, .nil, consumes⟩
    | cons token tokens ih =>
      obtain ⟨⟩ | ⟨shows, reads, others⟩ := consumes
      obtain ⟨middle, next, first, others⟩ := ih others
      exact ⟨middle, next, .cons shows reads first, others⟩
  · rintro ⟨middle, next, first, others⟩
    induction first with
    | nil => exact others
    | cons shows reads _ ih => exact .cons shows reads (ih others)

/-- **Arguments are split where they end.** Behind the opening parenthesis, collecting takes the
tokens of a stack of streams up to the first parenthesis that closes the call, or stops before the
end of the input or the beginning of a directive, and reads nothing beyond. Newlines vanish; what is
left of a closed call is split at the commas outside inner parentheses into arguments that are
balanced themselves. -/
theorem collectArguments_splits (fuel bound : Nat) (sources rest : List TokenStream)
    (context last : Context) :
    (∀ arguments, collectArguments (move fuel) bound {} sources context =
        .ok (.closed arguments, rest) last ↔
      ∃ inside closing, inside.length < bound ∧
        Consumes (move fuel) (inside ++ [closing]) sources context rest last ∧
        (∀ token ∈ inside, token.GoesOn) ∧ depthAfter 0 inside = some 0 ∧
        closing.isPunctuator ")" = true ∧
        arguments = ⟨withoutNewlines inside, spansFrom 0
          (argumentsIn 0 (withoutNewlines inside))⟩) ∧
    (∀ tokens, collectArguments (move fuel) bound {} sources context =
        .ok (.unclosed tokens, rest) last ↔
      ∃ inside middle next token, inside.length < bound ∧
        Consumes (move fuel) inside sources context middle next ∧
        (∀ token ∈ inside, token.GoesOn) ∧ (depthAfter 0 inside).isSome ∧
        peekStack (move fuel) middle next = .ok (token, rest) last ∧
        (token.isEof = true ∨ token.kind = .directive) ∧ tokens = withoutNewlines inside) ∧
    ∀ inside tokens, depthAfter 0 inside = some 0 → tokens = withoutNewlines inside →
      (argumentsIn 0 tokens).length = (outerCommas 0 tokens).length + 1 ∧
      separated (argumentsIn 0 tokens) (outerCommas 0 tokens) = tokens ∧
      ∀ argument ∈ argumentsIn 0 tokens, isBalanced 0 argument = true := by
  have same (sources : List TokenStream) (context : Context) (token : Token)
      (shown : List TokenStream) (next : Context) (given : Token) (rest : List TokenStream)
      (last : Context) (shows : peekStack (move fuel) sources context = .ok (token, shown) next)
      (reads : readStack (move fuel) shown next = .ok (given, rest) last) :
      given = token := by
    have stable := TokenStream.stable_move context.table fuel
    obtain ⟨kept, -, -, -, again⟩ := (stable.peekStack sources).done rfl shows
    exact (again.done kept reads).2.2
  refine ⟨fun arguments => ?_, fun tokens => ?_, fun inside tokens closed without => ?_⟩
  · rw [collectArguments_ok_iff same]
    constructor
    · rintro ⟨inside, middle, next, short, consumes, goOn, isOpen, ends⟩
      cases ends with
      | @closed closing taken closes flat =>
        obtain ⟨depth, after⟩ := Option.isSome_iff_exists.mp isOpen
        cases (Collecting.depth_takeAll after).symm.trans flat
        exact ⟨inside, closing, short, consumes_append_iff.mpr ⟨middle, next, consumes, taken⟩,
          goOn, after, closes, Collecting.arguments_takeAll inside⟩
    · rintro ⟨inside, closing, short, consumes, goOn, after, closes, rfl⟩
      obtain ⟨middle, next, consumes, ends⟩ := consumes_append_iff.mp consumes
      refine ⟨inside, middle, next, short, consumes, goOn, by rw [after]; rfl, ?_⟩
      rw [← Collecting.arguments_takeAll]
      exact .closed ends closes (Collecting.depth_takeAll after)
  · rw [collectArguments_ok_iff same]
    constructor
    · rintro ⟨inside, middle, next, short, consumes, goOn, isOpen, ends⟩
      cases ends with
      | @unclosed token shows stops =>
        exact ⟨inside, middle, next, token, short, consumes, goOn, isOpen, shows, stops,
          Collecting.tokens_takeAll {} inside⟩
    · rintro ⟨inside, middle, next, token, short, consumes, goOn, isOpen, shows, stops, rfl⟩
      refine ⟨inside, middle, next, short, consumes, goOn, isOpen, ?_⟩
      have all : (Collecting.takeAll {} inside).tokens.toList = withoutNewlines inside :=
        Collecting.tokens_takeAll {} inside
      rw [← all]
      exact .unclosed shows stops
  · rw [← depthAfter_withoutNewlines, ← without] at closed
    obtain ⟨first, others, split, balanced, each, counted, joined⟩ := argumentsIn_spec closed
    rw [split]
    exact ⟨by simp [counted], joined, List.forall_mem_cons.mpr ⟨balanced, each⟩⟩

end Preproc
