import Preproc.Proofs.Expansion.Accord

/-! # Expansions that are read from outside

The argument of a call is expanded by an expansion of its own. What plays the macro looks at it
again and again, takes its tokens one at a time, and reads past its end. An expansion that is alike
and is drained at one go gives its tokens in some run; then the one that is read from outside
delivers the same tokens, in every run with enough fuel.

The difficulty is that a name may be looked at twice. A name that stays when it is looked at first
stays for a reason that is still there later: this is what `Expansion.Rests` is about.
-/

namespace Preproc

open TokenStream (move Mover readStack peekStack readWith peekWith showing Delivers Shows)
open Engine (Ensures Follows Kinship Meets Yields bind_ok_iff yields_iff)

namespace Engine

/-- Contexts that have a table in common, and maybe nothing else. -/
def sharing (table : MacroTable) (context context' : Context) : Prop :=
  context.table = table ∧ context'.table = table

theorem kinship_sharing (table : MacroTable) : Kinship table (sharing table) where
  first := And.left
  second := And.right
  traced same _ _ := same
  allocated same _ _ := same
  reported same _ _ := same

variable {α β γ : Type} {table : MacroTable} {action : Engine α} {other : Engine β}
  {related : α → β → Prop}

theorem Follows.yields (follows : Follows (sharing table) action other related)
    {context next : Context} {value : α} (same : context.table = table)
    (ran : action context = .ok value next) :
    next.table = table ∧ Yields table True other (related value) := by
  have here (context' : Context) (same' : context'.table = table) := by
    have here := follows context context' ⟨same, same'⟩
    rw [ran] at here
    exact here
  constructor
  · obtain ⟨_, _, _, kept, _⟩ := here context same
    exact kept.1
  · refine yields_iff.mpr fun context' same' => ?_
    obtain ⟨value', next', ran', kept, holds⟩ := here context' same'
    exact ⟨value', next', ran', kept.2, .inl trivial, holds⟩

theorem follows_of_yields {value : α} (yields : Yields table True other (related value)) :
    Follows (sharing table) (pure value) other related := by
  intro context context' ⟨same, same'⟩
  obtain ⟨value', next', ran, kept, -, holds⟩ := yields_iff.mp yields context' same'
  exact ⟨value', next', ran, ⟨same, kept⟩, holds⟩

theorem Follows.stutter {before : Engine γ} {condition : γ → Prop} {next : γ → Engine β}
    (steps : Yields table True before condition)
    (follows : ∀ value, condition value → Follows (sharing table) action (next value) related) :
    Follows (sharing table) action (before >>= next) related := by
  intro context context' ⟨same, same'⟩
  obtain ⟨value, middle, ran, kept, -, holds⟩ := yields_iff.mp steps context' same'
  have goesOn := follows value holds context middle ⟨same, kept⟩
  have whole : (before >>= next) context' = next value middle := by
    change EStateM.bind before next context' = _
    unfold EStateM.bind
    rw [ran]
  rw [whole]
  exact goesOn

end Engine

open Engine (sharing kinship_sharing)

namespace TokenStream

variable {streams : List TokenStream}

theorem Flat.settle {stream : TokenStream} (flat : stream.Flat) (fuel : Nat) :
    move (fuel + 1) .settle stream = pure stream := by
  cases stream with
  | expansion _ => exact flat.elim
  | _ => rfl

theorem peekStack_of_flat (fuel : Nat) (present : streams ≠ [])
    (flat : ∀ stream ∈ streams, stream.Flat) :
    peekStack (move (fuel + 1)) streams = pure (showing streams, streams) := by
  unfold peekStack
  induction streams with
  | nil => exact absurd rfl present
  | cons top below ih =>
    obtain ⟨here, flat⟩ := List.forall_mem_cons.mp flat
    have looked : peekWith (move (fuel + 1)) top = pure (top.head, top) := by
      unfold peekWith
      rw [here.settle, pure_bind]
    rw [Stack.peek_cons, showing_cons, looked, pure_bind]
    dsimp only
    split
    next passed =>
      rw [ih (by simp_all) flat]
      rfl
    next => rfl

end TokenStream

namespace Expansion

variable {table : MacroTable} {loud : Prop} {expansion : Expansion TokenStream}

theorem Rests.attempts {other : Expansion TokenStream} {fails : Failure → Prop} {move : Mover}
    {bound : Nat} (rests : other.Rests table) (lookahead : other.lookahead = expansion.lookahead)
    (leftAlone : other.leftAlone = expansion.leftAlone)
    (sources : other.sources = expansion.sources) (short : bound = 0 → fails .outOfFuel)
    (looks : other.sources ≠ [] → (∀ stream ∈ other.sources, stream.Flat) →
      Meets fails table loud (peekStack move other.sources)
        (· = (showing other.sources, other.sources))) :
    Meets fails table loud (expansion.attempt move bound) fun attempt =>
      attempt = .stays expansion ∨ (attempt = .stays expansion.rooted ∧ other.rooted = other) := by
  rw [attempt_eq, ← lookahead, ← leftAlone, ← sources]
  by_cases passed : (!other.lookahead.isIdentifier || other.leftAlone) = true
  · rw [if_pos passed]
    exact .pure (.inl rfl)
  rw [if_neg passed]
  apply Meets.bind (.lookup _)
  rintro _ rfl
  cases rests with
  | passed already => exact absurd already passed
  | unnamed unnamed =>
    rw [unnamed]
    exact .pure (.inl rfl)
  | busy named stack isBusy =>
    rw [named, stack]
    simp only [busyOnTop, pure_bind, isBusy, if_true]
    exact .pure (.inl rfl)
  | @uncalled entry named functionLike rooted present flat noNewline noCall =>
    rw [named]
    obtain ⟨top, below, stack⟩ := List.exists_cons_of_ne_nil present
    have onTop : busyOnTop other.sources = pure top.busy := by
      rw [stack]
      rfl
    dsimp only
    rw [onTop, pure_bind]
    by_cases isBusy : isBusy entry top.busy = true
    · rw [if_pos isBusy]
      exact .pure (.inl rfl)
    rw [if_neg isBusy, if_pos functionLike]
    have skips : Meets fails table loud (Stack.skipNewlines (readWith move) (peekWith move) bound
        other.sources) (· = other.sources) := by
      cases bound with
      | zero => exact .throw (short rfl)
      | succ bound =>
        apply Meets.bind (looks present flat)
        rintro _ rfl
        dsimp only
        rw [if_neg (by simpa using noNewline)]
        exact .pure rfl
    unfold attemptCall
    rw [sources_rooted, ← sources]
    apply Meets.bind skips
    rintro _ rfl
    apply Meets.bind (looks present flat)
    rintro _ rfl
    dsimp only
    rw [noCall]
    exact .bind (.trace _) fun _ _ => .pure (.inr ⟨by rw [sources, ← sources_rooted], rooted⟩)

theorem Rests.attempt (rests : expansion.Rests table) (fuel bound : Nat) :
    Yields table loud (expansion.attempt (move (fuel + 1)) (bound + 1))
      (· = .stays expansion) := by
  refine (rests.attempts rfl rfl rfl (absurd · (Nat.succ_ne_zero _)) fun present flat => ?_).imp ?_
  · rw [TokenStream.peekStack_of_flat fuel present flat]
    exact .pure rfl
  · rintro _ (rfl | ⟨rfl, rooted⟩)
    · rfl
    · rw [rooted]

theorem Rests.settle (rests : expansion.Rests table) (fuel bound : Nat) :
    Yields table loud (expansion.settle (move (fuel + 1)) (bound + 2)) (· = expansion) := by
  apply Meets.bind (rests.attempt fuel bound)
  rintro _ rfl
  exact .pure rfl

end Expansion

namespace TokenStream

/-- Takes the token of a settled stream, and after it tokens up to the end. -/
def drainSettled (fuel bound : Nat) (stream : TokenStream) :
    Engine (List Token × TokenStream) := do
  let token := stream.head
  let stream ← move fuel .advance stream
  if token.isEof then return ([], stream)
  let (rest, stream) ← drain fuel bound stream
  return (token :: rest, stream)

theorem drain_succ_eq (fuel bound : Nat) (stream : TokenStream) :
    drain fuel (bound + 1) stream = move fuel .settle stream >>= drainSettled fuel bound := by
  unfold drain read readWith drainSettled
  simp only [bind_assoc, pure_bind]

def GivesOnce (table : MacroTable) (action : Engine (List Token × TokenStream))
    (tokens : List Token) : Prop :=
  ∃ context last next, context.table = table ∧ action context = .ok (tokens, last) next

def Drains (table : MacroTable) (fuel : Nat) (tokens : List Token) (stream : TokenStream) : Prop :=
  ∃ bound, GivesOnce table (stream.drain fuel bound) tokens

end TokenStream

open TokenStream (Drains GivesOnce drainSettled drain_succ_eq AtLeast)

section Nested

variable {like : Likeness} {table : MacroTable} {good : Token → Prop} {fuel : Nat}
  {tokens : List Token} {expansion expansion' : Expansion TokenStream}

/-- What a stream read from outside has to do with the tokens it is to deliver: an expansion that is
alike gives them from here on, and if its next token was looked at before, it rests there. -/
def Likeness.Stands (like : Likeness) (table : MacroTable) (good : Token → Prop) (fuel : Nat)
    (tokens : List Token) (stream : TokenStream) : Prop :=
  ∃ expansion expansion', stream = .expansion expansion' ∧ expansion.Alike like good expansion' ∧
    ((.expansion expansion : TokenStream).Drains table (fuel + 1) tokens ∨
      (expansion.Rests table ∧
        ∃ bound, GivesOnce table (drainSettled (fuel + 1) bound (.expansion expansion)) tokens))

variable (lawful : like.Lawful table) (supplied : like.Supplied (sharing table) 0)
include lawful supplied

theorem Expansion.Rests.stands (rests : expansion.Rests table)
    (alike : expansion.Alike like good expansion') {bound : Nat}
    (gives : GivesOnce table (drainSettled (fuel + 1) bound (.expansion expansion)) tokens)
    {fuel' : Nat} (more : fuel ≤ fuel') :
    like.Stands table good fuel tokens (.expansion expansion') ∧
      Shows tokens expansion'.lookahead ∧
      Yields table True (move (fuel' + 1) .advance (.expansion expansion'))
        (like.Stands table good fuel tokens.tail) := by
  have agree := Likeness.agree_move lawful (kinship_sharing table) supplied more
  refine ⟨⟨expansion, expansion', rfl, alike, .inr ⟨rests, bound, gives⟩⟩, ?_⟩
  have again := gives
  obtain ⟨context, last, next, same, ran⟩ := gives
  obtain ⟨_, middle, advanced, ran⟩ := bind_ok_iff.mp ran
  obtain ⟨taken, _, advanced, wrapped⟩ := bind_ok_iff.mp advanced
  cases wrapped
  obtain ⟨kept, follows⟩ := (alike.advance agree).yields same advanced
  change (if expansion.lookahead.isEof = true then _ else _ : Engine _) _ = _ at ran
  by_cases ended : expansion.lookahead.isEof = true
  · rw [if_pos ended] at ran
    cases ran
    -- The end is not taken away: the expansion still rests there.
    have stays : taken = expansion := by
      unfold Expansion.advance at advanced
      rw [if_pos ended] at advanced
      cases advanced
      rfl
    subst stays
    refine ⟨alike.lookahead.isEof_eq.trans ended, (follows.image).imp ?_⟩
    rintro _ ⟨taken', rfl, alike'⟩
    exact ⟨taken, taken', rfl, alike'.1, .inr ⟨rests, bound, again⟩⟩
  · rw [if_neg ended] at ran
    have goesOn : expansion.lookahead.isEof = false := by simpa using ended
    obtain ⟨⟨rest, final⟩, _, drained, result⟩ := bind_ok_iff.mp ran
    cases result
    refine ⟨⟨alike.lookahead.eq_of_goesOn goesOn, goesOn⟩, (follows.image).imp ?_⟩
    rintro _ ⟨taken', rfl, alike'⟩
    exact ⟨taken, taken', rfl, alike'.1, .inl ⟨bound, _, last, next, kept, drained⟩⟩

theorem Expansion.Alike.delivers (calm : ∀ token, good token → token.kind ≠ .newline)
    (alike : expansion.Alike like good expansion')
    (drains : (.expansion expansion : TokenStream).Drains table (fuel + 1) tokens) :
    Delivers table True (AtLeast (fuel + 3)) tokens (.expansion expansion') := by
  refine ⟨like.Stands table good fuel, ?_, expansion, expansion', rfl, alike, .inl drains⟩
  rintro _ ⟨enough, more, rfl⟩ tokens _ ⟨expansion, expansion', rfl, alike, stage⟩
  obtain ⟨fuel', rfl⟩ := Nat.exists_eq_add_of_le' (Nat.le_trans (Nat.le_add_left 3 fuel) more)
  have atLeast : fuel ≤ fuel' + 2 := by omega
  rcases stage with ⟨bound, drains⟩ | ⟨rests, bound, gives⟩
  · cases bound with
    | zero =>
      obtain ⟨_, _, _, _, ran⟩ := drains
      cases ran
    | succ bound =>
      rw [drain_succ_eq] at drains
      obtain ⟨context, last, next, same, ran⟩ := drains
      obtain ⟨_, middle, settles, ran⟩ := bind_ok_iff.mp ran
      obtain ⟨settled, _, settles, wrapped⟩ := bind_ok_iff.mp settles
      cases wrapped
      have agree := Likeness.agree_move lawful (kinship_sharing table) supplied atLeast
      obtain ⟨kept, follows⟩ :=
        (alike.settle lawful (kinship_sharing table) agree (.inr calm) atLeast).yields same settles
      apply follows.image.imp
      rintro _ ⟨settled', rfl, alike', _, rests⟩
      exact (rests calm).stands lawful supplied alike' ⟨_, last, next, kept, ran⟩ atLeast
  · -- The first expansion rests, so it settles with little fuel.
    have agree := Likeness.agree_move lawful (kinship_sharing table) supplied
      (Nat.le_add_left 1 (fuel' + 1))
    obtain ⟨context, last, next, same, ran⟩ := gives
    obtain ⟨_, middle, settles, _, -, rfl⟩ :=
      yields_iff.mp (@Rests.settle table True _ rests 0 0) context same
    obtain ⟨_, follows⟩ := (alike.settle lawful (kinship_sharing table) agree (.inr calm)
      (Nat.le_add_left 2 fuel')).yields same settles
    apply follows.image.imp
    rintro _ ⟨settled', rfl, alike', _⟩
    exact rests.stands lawful supplied alike' ⟨context, last, next, same, ran⟩ atLeast

end Nested

end Preproc
