import Preproc.Proofs.Expansion.Follows
import Preproc.Proofs.Regime.Expansion

/-! # Playing compiled bodies to their end

A macro is played back by opening its ops from the first to the last. This goes well exactly when
the ops are arranged for it, and they are so for every body that does not end in two pastes after
something else: a body such as `a ## ##` keeps its first paste as the last op, with no op after it
to open.

Main statement: `compiled_body_playback`.
-/

namespace Preproc

open TokenStream (move)

namespace Op

/-- Ops that playback can go through: there are some, no paste stands at either end or beside
another, and no argument beside a paste is expanded. -/
structure Arranged (ops : List Op) : Prop where
  nonempty : ops ≠ []
  first : ∀ op ∈ ops.head?, op.isPaste = false
  last : ∀ op ∈ ops.getLast?, op.isPaste = false
  apart : ∀ left right, [left, right] <:+: ops → left.isPaste = true → right.isPaste = false
  shielded_left : ∀ left right, [left, right] <:+: ops →
    right.isPaste = true → left.isExpanded = false
  shielded_right : ∀ left right, [left, right] <:+: ops →
    left.isPaste = true → right.isExpanded = false

section Compiled

variable (indices : String → Option Nat) (functionLike : Bool) (body : List Token)

theorem compile_first (op : Op)
    (first : op ∈ (compile (nameIndex indices) functionLike body).ops.head?) :
    op.isPaste = false := by
  have read := through?_compile indices functionLike body
  cases whole : (compile (nameIndex indices) functionLike body).ops with
  | nil => simp [whole] at first
  | cons head rest =>
    have same : op = head := by simpa [whole, eq_comm] using first
    rw [whole] at read
    cases paste : op.isPaste with
    | false => rfl
    | true =>
      rw [same] at paste
      simp [Before.through?, Before.next?_of_isPaste paste] at read

theorem compile_apart (left right : Op)
    (neighbours : [left, right] <:+: (compile (nameIndex indices) functionLike body).ops)
    (paste : left.isPaste = true) : right.isPaste = false :=
  Before.not_pastes_of_through? (through?_compile indices functionLike body) neighbours paste

theorem compile_endsInPaste (pastes : endsInPastes body = true) :
    ∃ front index second,
      (compile (nameIndex indices) functionLike body).ops = front ++ [.paste index second] := by
  have read := through?_compile indices functionLike body
  obtain ⟨empty, _⟩ | ⟨front, final, whole, same⟩ := Before.getLast?_of_through? read
  · exact absurd empty (compile_ops_ne_nil indices functionLike body)
  · rw [pastes] at same
    cases final with
    | paste index second => exact ⟨front, index, second, whole⟩
    | _ => simp [isPaste] at same

theorem compile_shielded_left (plain : endsInPastes body = false) (left right : Op)
    (neighbours : [left, right] <:+: (compile (nameIndex indices) functionLike body).ops)
    (paste : right.isPaste = true) : left.isExpanded = false := by
  obtain ⟨front, back, whole⟩ := neighbours
  cases back with
  | nil =>
    have last : right ∈ (compile (nameIndex indices) functionLike body).ops.getLast? := by
      rw [← whole]
      simp
    have notPaste := compile_last indices functionLike body right last
    rw [paste, plain] at notPaste
    cases notPaste
  | cons next back =>
    have three : [left, right, next] <:+: (compile (nameIndex indices) functionLike body).ops :=
      ⟨front, back, by rw [← whole]; simp⟩
    exact not_isExpanded_before_paste false three paste

theorem compile_arranged_iff :
    Arranged (compile (nameIndex indices) functionLike body).ops ↔ endsInPastes body = false := by
  constructor
  · intro arranged
    have isSome := List.getLast?_isSome.mpr arranged.nonempty
    obtain ⟨op, last⟩ := Option.isSome_iff_exists.mp isSome
    rw [← compile_last indices functionLike body op last]
    exact arranged.last op last
  · intro plain
    refine ⟨compile_ops_ne_nil _ _ _, compile_first _ _ _, ?_, compile_apart _ _ _,
      compile_shielded_left _ _ _ plain, ?_⟩
    · intro op last
      rw [compile_last indices functionLike body op last]
      exact plain
    · intro left right neighbours paste
      exact not_isExpanded_after_paste false neighbours paste

end Compiled

end Op

/-- The regime of tables whose macros are all playable: what it rules out is that playback runs out
of ops or of body, or begins with a paste. -/
def playing : Regime :=
  .ofMacros (·.definition.Playable) fun failure =>
    failure ≠ .outOfRange ∧ failure ≠ .internal .startsAtPaste

theorem playing_lawful : playing.Lawful :=
  Regime.lawful_ofMacros .inl And.intro

namespace Playback

/-- Plays a macro from its beginning, reading at most so many tokens. -/
def playThrough (fuel bound : Nat) (playback : Playback TokenStream)
    (around : List Macro.Entry) : Engine (List Token) := do
  let primed ← playback.prime (move fuel) around
  let (tokens, _) ← (TokenStream.playback primed).drain fuel bound
  return tokens

theorem keeps_playThrough (fuel bound : Nat) (playback : Playback TokenStream)
    (around : List Macro.Entry) :
    playing.Keeps (playback.entry.definition.Playable ∧ playback.operands = [])
      (playback.playThrough fuel bound around) fun _ => True := by
  have moves := playing_lawful.moves_move fuel
  refine .bind (playing_lawful.prime moves playback around) ?_ fun primed => ?_
  · intro ⟨playable, fresh⟩
    have call : playing.Call playback :=
      ⟨playable, trivial, Regime.rooted_of_forall (fun _ => trivial) _, fun _ _ => trivial, trivial⟩
    have operands : playing.Streams playback.operands := by
      rw [fresh]
      exact Regime.streams_nil
    exact ⟨⟨call, trivial⟩, operands⟩
  · refine .bind (playing_lawful.drain moves bound (.playback primed)) And.right ?_
    rintro ⟨tokens, rest⟩
    exact .pure fun _ => trivial

end Playback

namespace Playback

/-- Ops whose last one is a paste. -/
def EndsInPaste (ops : List Op) : Prop :=
  ∃ front index second, ops = front ++ [.paste index second]

theorem EndsInPaste.tail {op : Op} {ops : List Op} (ends : EndsInPaste (op :: ops))
    (more : ops ≠ [] ∨ op.isPaste = false) : EndsInPaste ops := by
  obtain ⟨front, index, second, whole⟩ := ends
  cases front with
  | nil =>
    obtain ⟨rfl, rfl⟩ : op = .paste index second ∧ ops = [] := by simpa using whole
    rcases more with more | operand
    · exact absurd rfl more
    · cases operand
  | cons first front =>
    obtain ⟨_, rest⟩ : op = first ∧ ops = front ++ [.paste index second] := by simpa using whole
    exact ⟨front, index, second, rest⟩

section Unending

open Engine (Ensures)

variable {move : TokenStream.Mover} {playback : Playback TokenStream}

theorem returns_exhausted (token : Token) (operands : List TokenStream) :
    Ensures (exhausted move token operands) fun found => found.1 = false → token.isEof = false := by
  refine .after ?_
  rintro ⟨next, operands'⟩
  dsimp only
  split
  · exact .throw trivial
  next together =>
    refine .pure fun more => ?_
    have both : next.isEof = false → token.isEof = false := by simpa using together
    exact both more

theorem returns_join_paste {op : Op} (paste : op.isPaste = true) (left : Option Token)
    (mark : Token) : Ensures (playback.join move left mark op) fun _ => False := by
  have fails : Ensures (playback.openOp move op) fun _ => False := by
    cases op with
    | paste index second => exact .throw trivial
    | _ => cases paste
  exact .bind fails fun _ => False.elim

theorem returns_carry (token : Token) (own : Bool) (pending : List Op)
    (operands : List TokenStream) (ends : EndsInPaste pending) :
    Ensures (playback.carry move token own pending operands)
      fun found => found.token.isEof = false ∧ EndsInPaste found.pending := by
  fun_induction Playback.carry move playback token own pending operands with
  | case1 own token operands =>
    obtain ⟨front, index, second, whole⟩ := ends
    simp at whole
  | case2 own token index second operands =>
    refine .bind (returns_exhausted token operands) ?_
    rintro ⟨done, operands'⟩ more
    dsimp only
    split
    next notDone => exact .pure ⟨more (by simpa using notDone), ends⟩
    next => exact .after fun _ => .throw trivial
  | case3 token own index second op pending operands ihOwn ihOther =>
    refine .bind (returns_exhausted token operands) ?_
    rintro ⟨done, operands'⟩ more
    dsimp only
    split
    next notDone => exact .pure ⟨more (by simpa using notDone), ends⟩
    refine .after fun mark => ?_
    have opEnds := ends.tail (.inl (List.cons_ne_nil op pending))
    by_cases paste : op.isPaste = true
    · exact .bind (returns_join_paste paste _ mark) fun _ => False.elim
    have restEnds := opEnds.tail (.inr (by simpa using paste))
    refine .after fun operands => ?_
    generalize (if own && !token.isEof then some token else none) = left
    split
    · refine .after ?_
      rintro ⟨token', operands⟩
      exact ihOwn token' operands restEnds
    · exact ihOther operands restEnds
  | case4 own token op pending operands notLast notPaste ihOwn ihOther =>
    have restEnds := ends.tail (.inr (Op.isPaste_eq_false notLast notPaste))
    refine .bind (returns_exhausted token operands) ?_
    rintro ⟨done, operands'⟩ more
    dsimp only
    split
    next notDone => exact .pure ⟨more (by simpa using notDone), ends⟩
    refine .after fun opened => ?_
    split
    · refine .after ?_
      rintro ⟨token', operands⟩
      exact ihOwn token' operands restEnds
    · exact ihOther opened restEnds

/-- A playback that has not ended, with a paste as the last of its ops. -/
structure Unending (playback : Playback TokenStream) : Prop where
  more : playback.lookahead.isEof = false
  opened : playback.closed = false
  ends : EndsInPaste playback.pending

theorem returns_fetch (opened : playback.closed = false) (ends : EndsInPaste playback.pending) :
    Ensures (playback.fetch move) Unending := by
  unfold fetch
  rw [opened]
  refine .after ?_
  rintro ⟨token, operands⟩
  refine .bind (returns_carry token true playback.pending operands ends) ?_
  rintro found ⟨more, ends⟩
  exact .pure ⟨more, rfl, ends⟩

theorem returns_prime (around : List Macro.Entry) (opened : playback.closed = false)
    (first : ∀ op ∈ playback.entry.definition.ops.head?, op.isPaste = false)
    (ends : EndsInPaste playback.entry.definition.ops) :
    Ensures (playback.prime move around) Unending := by
  refine .after fun _ => ?_
  dsimp only
  split
  · exact .throw trivial
  next op pending whole =>
    refine .after fun operand => returns_fetch opened ?_
    rw [whole] at first ends
    exact ends.tail (.inr (first op rfl))

theorem returns_drain (fuel bound : Nat) (unending : playback.Unending) :
    Ensures ((TokenStream.playback playback).drain fuel bound) fun _ => False := by
  induction bound generalizing playback with
  | zero => exact .throw trivial
  | succ bound ih =>
    cases fuel with
    | zero => exact .bind (.bind (.throw trivial) fun _ => False.elim) fun _ => False.elim
    | succ fuel =>
      have read : Ensures ((TokenStream.playback playback).read (fuel + 1)) fun found =>
          found.1.isEof = false ∧ ∃ next : Playback TokenStream,
            found.2 = .playback next ∧ next.Unending := by
        refine .bind (.pure rfl : Ensures _ (· = TokenStream.playback playback)) ?_
        rintro _ rfl
        have advanced : Ensures (playback.advance (move fuel)) Unending := by
          unfold advance
          rw [unending.more]
          exact returns_fetch unending.opened unending.ends
        have moved : Ensures (move (fuel + 1) .advance (.playback playback))
            fun stream => ∃ next : Playback TokenStream,
              stream = .playback next ∧ next.Unending :=
          .bind advanced fun next kept => .pure ⟨next, rfl, kept⟩
        exact .bind moved fun _ kept => .pure ⟨unending.more, kept⟩
      refine .bind read ?_
      rintro ⟨token, _⟩ ⟨more, next, rfl, kept⟩
      dsimp only at more ⊢
      rw [more]
      refine .bind (ih kept) fun _ => False.elim

theorem returns_playThrough (fuel bound : Nat) (around : List Macro.Entry)
    (opened : playback.closed = false)
    (first : ∀ op ∈ playback.entry.definition.ops.head?, op.isPaste = false)
    (ends : EndsInPaste playback.entry.definition.ops) :
    Ensures (playback.playThrough fuel bound around) fun _ => False :=
  .bind (returns_prime around opened first ends) fun _ unending =>
    .bind (returns_drain fuel bound unending) fun _ => False.elim

end Unending

end Playback

/-- **Playing compiled bodies.** Whatever the body, the parameters and the flavour, there are ops,
the first is no paste, and no two pastes are neighbours. The ops are arranged for playback exactly
when the body does not end in two pastes after something else. A macro with any other body is
played, among macros that are built likewise, without running out of ops and without beginning at
a paste; a macro with such a body is never played to an end. -/
theorem compiled_body_playback (body : List Token) :
    (∀ (indices : String → Option Nat) (functionLike : Bool),
      let ops := (Op.compile (Op.nameIndex indices) functionLike body).ops
      ops ≠ [] ∧ (∀ op ∈ ops.head?, op.isPaste = false) ∧
        (∀ left right, [left, right] <:+: ops → left.isPaste = true → right.isPaste = false) ∧
        (Op.Arranged ops ↔ Op.endsInPastes body = false)) ∧
    ∀ (nameToken : Token) (parameters : Option (List Parameter)) (endLocation : Location)
      (serial : Nat) (definition : Macro) (name : Token) (origin : Option Token)
      (arguments : Arguments) (outermost : Bool) (around : List Macro.Entry) (lookahead : Token)
      (fuel bound : Nat) (context : Context),
      (Macro.build nameToken parameters body endLocation).1 = .ok definition →
      let invocation : Playback TokenStream :=
        { entry := ⟨serial, definition⟩, nameToken := name, origin, arguments, outermost,
          lookahead }
      (Op.endsInPastes body = false → (∀ entry ∈ context.table.entries, entry.definition.Sound) →
        ∀ failure next,
          invocation.playThrough fuel bound around context = .error failure next →
            failure ≠ .outOfRange ∧ failure ≠ .internal .startsAtPaste) ∧
      (Op.endsInPastes body = true → ∀ tokens next,
        invocation.playThrough fuel bound around context ≠ .ok tokens next) := by
  constructor
  · intro indices functionLike
    exact ⟨Op.compile_ops_ne_nil _ _ _, Op.compile_first _ _ _, Op.compile_apart _ _ _,
      Op.compile_arranged_iff _ _ _⟩
  intro nameToken parameters endLocation serial definition name origin arguments outermost around
    lookahead fuel bound context built
  obtain ⟨_, sameOps⟩ := Macro.ops_of_build built
  constructor
  · intro plain table failure next failed
    have sound : definition.Sound :=
      .inr (.inr ⟨nameToken, parameters, body, endLocation, built, plain⟩)
    have kept := Playback.keeps_playThrough fuel bound
      { entry := ⟨serial, definition⟩, nameToken := name, origin, arguments, outermost, lookahead }
      around context
    rw [failed] at kept
    have live : playing.Live next := fun silent => by cases silent
    exact (kept live).2 (fun entry member => (table entry member).playable) ⟨sound.playable, rfl⟩
  · intro pastes tokens next played
    have ends : Playback.EndsInPaste definition.ops := by
      rw [sameOps]
      exact Op.compile_endsInPaste _ _ body pastes
    have first : ∀ op ∈ definition.ops.head?, op.isPaste = false := by
      rw [sameOps]
      exact Op.compile_first _ _ _
    exact (Playback.returns_playThrough fuel bound around rfl first ends).gives played

/-- The body `a ## b`. -/
def pairBody : List Token :=
  [⟨.identifier, "a", .unknown, false⟩, ⟨.punctuator, "##", .unknown, false⟩,
    ⟨.identifier, "b", .unknown, false⟩]

def danglingBody : List Token :=
  [⟨.identifier, "a", .unknown, false⟩, ⟨.punctuator, "##", .unknown, false⟩,
    ⟨.punctuator, "##", .unknown, false⟩]

def namedBody (body : List Token) : Macro :=
  { flavor := .objectLike, name := "M", body,
    ops := (Op.compile (firstIndex []) false body).ops,
    nameToken := some ⟨.identifier, "M", .unknown, false⟩, endLocation := .unknown }

/-- An invocation of the macro `M` of a body. -/
def namedInvocation (body : List Token) : Playback TokenStream :=
  { entry := ⟨2, namedBody body⟩, nameToken := ⟨.identifier, "M", .unknown, false⟩,
    origin := none, lookahead := .endOfInput .unknown }

theorem playback_pairBody_danglingBody :
    (∀ failure next, (namedInvocation pairBody).playThrough 9 9 [] {} = .error failure next →
      failure ≠ .outOfRange ∧ failure ≠ .internal .startsAtPaste) ∧
    ∀ tokens next, (namedInvocation danglingBody).playThrough 9 9 [] {} ≠ .ok tokens next := by
  have sound : ∀ entry ∈ ({} : Context).table.entries, entry.definition.Sound := by
    have entries : ({} : Context).table.entries = [⟨1, .fileBuiltin⟩, ⟨0, .lineBuiltin⟩] := by
      decide
    rw [entries]
    simp [Macro.Sound]
  constructor
  · exact ((compiled_body_playback pairBody).2 ⟨.identifier, "M", .unknown, false⟩ none .unknown 2
      (namedBody pairBody) _ none {} false [] _ 9 9 {} rfl).1 rfl sound
  · exact ((compiled_body_playback danglingBody).2 ⟨.identifier, "M", .unknown, false⟩ none
      .unknown 2 (namedBody danglingBody) _ none {} false [] _ 9 9 {} rfl).2 rfl

theorem danglingBody_outOfRange :
    (Op.compile (Op.nameIndex fun _ => none) false danglingBody).ops =
      [.span 0 1, .paste 1 0] ∧
    ∃ next, (namedInvocation danglingBody).playThrough 9 9 [] {} = .error .outOfRange next :=
  ⟨by decide, _, rfl⟩

end Preproc
