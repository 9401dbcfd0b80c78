import Preproc.Proofs.Expansion.Reference
import Preproc.Proofs.Macro.Playthrough

/-! # Expansion with macros without parameters

If no macro of a table takes arguments, expanding a list of tokens comes to its end and gives the
reference expansion. The engine is followed step by step by the machine that holds the tokens of
its streams.

Main statement: `expandTokens_reference`.
-/

namespace Preproc

open TokenStream
open Engine (Yields yields_iff)
open Playback (Readable StandsAt)

namespace Macro

/-- The macros without parameters whose playback goes well: the builtin ones, and those that a
definition line gives with a body of tokens that all stand for some text and with ops that do not
end in a paste. -/
def Plain (definition : Macro) : Prop :=
  definition = lineBuiltin ∨ definition = fileBuiltin ∨
    ∃ nameToken body endLocation,
      (build nameToken none body endLocation).1 = .ok definition ∧
        (∀ token ∈ body, token.Solid) ∧ ∀ op ∈ definition.ops.getLast?, op.isPaste = false

variable {definition : Macro} (plain : definition.Plain)

include plain

theorem Plain.isFunctionLike : definition.isFunctionLike = false := by
  rcases plain with rfl | rfl | ⟨nameToken, body, endLocation, built, _⟩
  · rfl
  · rfl
  · rw [eq_of_checked built]
    rfl

theorem Plain.playable : definition.Playable := by
  rcases plain with rfl | rfl | ⟨nameToken, body, endLocation, built, _, last⟩
  · exact Sound.playable (.inl rfl)
  · exact Sound.playable (.inr (.inl rfl))
  · exact (sound_of_build built last).playable

theorem Plain.solid_body : ∀ token ∈ definition.body, token.Solid := by
  rcases plain with rfl | rfl | ⟨nameToken, body, endLocation, built, solid, _⟩
  · simp [lineBuiltin]
  · simp [fileBuiltin]
  · rw [(ops_of_build built).1]
    exact solid

theorem Plain.operand {op : Op} (member : op ∈ definition.ops) (operand : op.isPaste = false) :
    (∃ start stop : Nat, op = .span start stop ∧ start ≤ stop ∧ stop ≤ definition.body.length) ∨
      (∃ first second, op = .line first second) ∨ ∃ first second, op = .file first second := by
  rcases plain with rfl | rfl | ⟨nameToken, body, endLocation, built, _⟩
  · exact .inr (.inl ⟨0, 0, List.mem_singleton.mp member⟩)
  · exact .inr (.inr ⟨0, 0, List.mem_singleton.mp member⟩)
  obtain ⟨sameBody, sameOps⟩ := ops_of_build built
  rw [sameOps] at member
  have placed := Op.placed_compile _ _ body op member
  rcases placed.span_or_paste (by simp [Op.nameIndex]) with spanned | paste
  · exact .inl (by rwa [sameBody])
  · rw [paste] at operand
    cases operand

theorem solid_opTokens (origin name : Token) (op : Op) :
    ∀ token ∈ definition.opTokens origin name op, token.Solid := by
  have number (line : Int) : toString line ≠ "" := by
    cases line with
    | ofNat line => exact Nat.repr_ne_empty
    | negSucc line =>
      change "-" ++ Nat.repr (line + 1) ≠ ""
      simp
  have quoted (file : String) : quoteText file ≠ "" := by
    intro empty
    have nothing := congrArg String.toList empty
    simp [quoteText] at nothing
  cases op with
  | span first last =>
    exact fun token member => plain.solid_body token (Regime.mem_of_mem_slice member)
  | line first second =>
    exact List.forall_mem_singleton.mpr ⟨rfl, number _⟩
  | file first second =>
    exact List.forall_mem_singleton.mpr ⟨rfl, quoted _⟩
  | _ => simp [opTokens]

end Macro

variable {table : MacroTable} {move : Mover}

theorem Macro.Plain.readable {loud : Prop} {playback : Playback TokenStream} {origin : Token}
    (plain : playback.entry.definition.Plain) (begun : playback.origin = some origin)
    (allowed : Op.Pasting playback.entry.definition.ops → loud) :
    Readable table loud Fuelled playback
      (playback.entry.definition.opTokens origin playback.nameToken)
      playback.entry.definition.markAt where
  allowed := allowed
  queues _ := delivers_queue
  playable := plain.playable
  opens move _ op member operand := by
    have queues : Playback.Queues table loud Fuelled := fun _ => delivers_queue
    have solid := solid_opTokens plain origin playback.nameToken op
    have fromOrigin : Yields table loud playback.originToken (· = origin) := by
      unfold Playback.originToken
      rw [begun]
      exact .pure rfl
    rcases plain.operand member operand with
      ⟨start, stop, rfl, ordered, inside⟩ | ⟨first, second, rfl⟩ | ⟨first, second, rfl⟩
    · exact Playback.yields_openSpan queues playback (by omega)
        fun token member => (solid token member).1
    all_goals
      refine .bind fromOrigin ?_
      rintro _ rfl
      exact Playback.yields_synthesize queues _ _ (by decide)
  solid op _ token member := (solid_opTokens plain origin playback.nameToken op token member).firm
  marks index second member := by
    obtain ⟨mark, there⟩ := plain.playable.inside _ member
    unfold Macro.markAt
    rw [there]
    rfl

/-- The streams that hold the tokens of a frame: a queue, or the playback of a macro. All macros
that are busy for them are in force. -/
inductive Holds (table : MacroTable) : Frame → TokenStream → Prop
  | queue {queue : TokenQueue} (noEnd : ∀ token ∈ queue.tokens, token.isEof = false)
      (finish : queue.finish.isEof = true) (inForce : ∀ entry ∈ queue.busy, table.InForce entry) :
      Holds table ⟨queue.tokens, queue.busy, false⟩ (.queue queue)
  | playback {playback : Playback TokenStream} {tokensOf : Op → List Token}
      {markAt : Int → Token} {tokens : List Token}
      (readable : Readable table True Fuelled playback tokensOf markAt)
      (opened : playback.closed = false)
      (stands : StandsAt table True Fuelled tokensOf markAt playback.entry.definition.ops tokens
        ⟨playback.lookahead, playback.pending, playback.operands⟩)
      (inForce : ∀ entry ∈ playback.chain, table.InForce entry) :
      Holds table ⟨tokens, playback.chain, playback.outermost⟩ (.playback playback)

namespace Holds

variable {frame : Frame} {stream : TokenStream} (holds : Holds table frame stream)

include holds

theorem busy : stream.busy = frame.chain := by
  cases holds <;> rfl

theorem inForce : ∀ entry ∈ frame.chain, table.InForce entry := by
  cases holds with
  | queue _ _ inForce => exact inForce
  | playback _ _ _ inForce => exact inForce

theorem isFinishedOutermost :
    Expansion.isFinishedOutermost stream = true ↔ frame.outermost = true ∧ frame.tokens = [] := by
  cases holds with
  | queue _ _ _ => simp [Expansion.isFinishedOutermost]
  | @playback playback tokensOf markAt tokens readable opened stands inForce =>
    have shown : Shows tokens playback.lookahead := stands.shows
    simp [Expansion.isFinishedOutermost, shown.isEof_iff]

theorem readWith (fuel : Nat) :
    Yields table True (readWith (TokenStream.move (fuel + 2)) stream) fun found =>
      Shows frame.tokens found.1 ∧
        Holds table { frame with tokens := frame.tokens.tail } found.2 := by
  cases holds with
  | @queue queue noEnd finish inForce =>
    refine .bind (.pure rfl) ?_
    rintro _ rfl
    refine .bind (.pure rfl) ?_
    rintro _ rfl
    refine .pure ⟨shows_queue noEnd finish, ?_⟩
    have later : Holds table ⟨queue.advance.tokens, queue.advance.busy, false⟩
        (.queue queue.advance) :=
      .queue (fun token member => noEnd token (List.mem_of_mem_tail member)) finish inForce
    exact later
  | @playback playback tokensOf markAt tokens readable opened stands inForce =>
    refine (Playback.yields_read ⟨fuel, rfl⟩ readable opened stands).imp ?_
    rintro ⟨token, _⟩ ⟨shown, found, rfl, stands⟩
    refine ⟨shown, ?_⟩
    have later : Holds table ⟨tokens.tail, (playback.movedTo found).chain,
        (playback.movedTo found).outermost⟩ (.playback (playback.movedTo found)) :=
      .playback (readable.movedTo found) opened stands inForce
    exact later

end Holds

/-- Stacks of streams that hold the tokens of a stack of frames. No call put the bottom one
there. -/
inductive HoldsAll (table : MacroTable) : List Frame → List TokenStream → Prop
  | bottom {frame : Frame} {stream : TokenStream} (holds : Holds table frame stream)
      (base : frame.outermost = false) : HoldsAll table [frame] [stream]
  | push {frame : Frame} {stream : TokenStream} {frames : List Frame}
      {streams : List TokenStream} (holds : Holds table frame stream)
      (rest : HoldsAll table frames streams) : HoldsAll table (frame :: frames) (stream :: streams)

namespace HoldsAll

variable {frames : List Frame} {streams : List TokenStream} {top : Frame} {below : List Frame}

theorem length_eq (holds : HoldsAll table frames streams) : streams.length = frames.length := by
  induction holds with
  | bottom _ _ => rfl
  | push _ _ ih => simp [ih]

theorem exists_top (holds : HoldsAll table frames streams) :
    ∃ frame below stream lower, frames = frame :: below ∧ streams = stream :: lower ∧
      Holds table frame stream := by
  cases holds with
  | bottom holds _ | push holds _ => exact ⟨_, _, _, _, rfl, rfl, holds⟩

theorem readStack (holds : HoldsAll table frames streams) (fuel : Nat) :
    Yields table True (readStack (TokenStream.move (fuel + 2)) streams) fun found =>
      Shows (Reader.takeNext frames).1.toList found.1 ∧
        HoldsAll table (Reader.takeNext frames).2 found.2 := by
  induction holds with
  | @bottom frame stream holds base =>
    refine .bind (holds.readWith fuel) ?_
    rintro ⟨token, bottom⟩ ⟨shown, later⟩
    refine .pure ⟨?_, .bottom later base⟩
    unfold Reader.takeNext
    cases waiting : frame.tokens with
    | nil => rwa [waiting] at shown
    | cons first tokens => rwa [waiting] at shown
  | @push frame stream frames streams holds rest ih =>
    obtain ⟨below, others, lower, lowers, rfl, rfl, _⟩ := rest.exists_top
    refine .bind (holds.readWith fuel) ?_
    rintro ⟨token, top⟩ ⟨shown, later⟩
    dsimp only at shown later ⊢
    unfold Reader.takeNext
    cases waiting : frame.tokens with
    | nil =>
      rw [waiting] at shown
      have ended : token.isEof = true := shown
      rw [if_pos ended]
      exact ih
    | cons first tokens =>
      rw [waiting] at shown later
      obtain ⟨rfl, noEnd⟩ := shown
      rw [if_neg (by simp [noEnd])]
      exact .pure ⟨⟨rfl, noEnd⟩, .push later rest⟩

theorem retireFinished (holds : HoldsAll table (top :: below) streams) :
    HoldsAll table (Reader.retire top below) (Expansion.retireFinished streams) := by
  unfold Reader.retire Expansion.retireFinished
  cases holds with
  | bottom holds base =>
    have unfinished : ¬ (top.outermost = true ∧ top.tokens = []) := by simp [base]
    rw [if_neg unfinished]
    dsimp only
    rw [if_neg (mt holds.isFinishedOutermost.mp unfinished)]
    exact .bottom holds base
  | push holds rest =>
    dsimp only
    by_cases finished : top.outermost = true ∧ top.tokens = []
    · rw [if_pos finished, if_pos (holds.isFinishedOutermost.mpr finished)]
      exact rest
    · rw [if_neg finished, if_neg (mt holds.isFinishedOutermost.mp finished)]
      exact .push holds rest

theorem busyOnTop (holds : HoldsAll table frames streams) :
    Yields table True (Expansion.busyOnTop streams) fun busy =>
      busy = (frames.head?.map (·.chain)).getD [] ∧ ∀ entry ∈ busy, table.InForce entry := by
  obtain ⟨frame, below, stream, lower, rfl, rfl, topHolds⟩ := holds.exists_top
  refine .pure ⟨topHolds.busy, ?_⟩
  rw [topHolds.busy]
  exact topHolds.inForce

end HoldsAll

theorem Reader.length_takeNext_le (frames : List Frame) :
    (takeNext frames).2.length ≤ frames.length := by
  fun_induction takeNext frames with
  | case1 => exact Nat.le_refl _
  | case2 bottom => exact Nat.le_refl _
  | case3 top below more empty ih => exact Nat.le_succ_of_le ih
  | case4 top below more token rest waiting => exact Nat.le_refl _

theorem isBusy_iff (made : table.Made) {entry : Macro.Entry} {chain : List Macro.Entry}
    (inForce : table.InForce entry) (chainInForce : ∀ other ∈ chain, table.InForce other) :
    isBusy entry chain = true ↔ entry.name ∈ chain.map (·.name) := by
  simp only [isBusy, List.any_eq_true, beq_iff_eq, List.mem_map]
  constructor
  · rintro ⟨other, member, same⟩
    have equal := made.eq_of_serial other (chainInForce other member).mem entry inForce.mem same
    exact ⟨other, member, by rw [equal]⟩
  · rintro ⟨other, member, same⟩
    have found := chainInForce other member
    unfold MacroTable.InForce at found inForce
    rw [same, inForce] at found
    exact ⟨other, member, by rw [Option.some.inj found]⟩

/-- The expansions that the machine follows. Its origin counts once a call has begun. -/
structure Holding (table : MacroTable) (reader : Reader) (expansion : Expansion TokenStream) :
    Prop where
  inherited : expansion.inherited = none
  leftAlone : expansion.leftAlone = false
  origin : reader.frames.length ≤ 1 ∨ expansion.origin = some reader.origin
  shown : Shows reader.shown.toList expansion.lookahead
  frames : HoldsAll table reader.frames expansion.sources

namespace Holding

variable {origin token : Token} {entry : Macro.Entry} {top : Frame} {below : List Frame}
  {expansion : Expansion TokenStream} {frames : List Frame}

theorem attempt_done (holding : Holding table ⟨origin, none, frames⟩ expansion) (fuel : Nat) :
    Yields table True (expansion.attempt move fuel) (· = .stays expansion) := by
  have ended : expansion.lookahead.isEof = true := holding.shown
  have noName : expansion.lookahead.isIdentifier = false := by
    simp_all [Token.isEof, Token.isIdentifier]
  unfold Expansion.attempt
  rw [if_pos (by simp [noName])]
  exact .pure rfl

theorem attempt_stay (made : table.Made)
    (holding : Holding table ⟨origin, some token, top :: below⟩ expansion)
    (stays : table.Stays token top.chain) (fuel : Nat) :
    Yields table True (expansion.attempt move fuel) (· = .stays expansion) := by
  have next : expansion.lookahead = token := holding.shown.1
  unfold Expansion.attempt
  by_cases passed : (!expansion.lookahead.isIdentifier || expansion.leftAlone) = true
  · rw [if_pos passed]
    exact .pure rfl
  rw [if_neg passed]
  refine .bind (.lookup _) ?_
  rintro _ rfl
  have named : table.entryFor? token = table.entry? expansion.lookahead.lexeme := by
    simp_all [MacroTable.entryFor?]
  rw [← named]
  split
  · exact .pure rfl
  next entry found =>
    refine .bind holding.frames.busyOnTop ?_
    rintro _ ⟨rfl, inForce⟩
    have busy := (isBusy_iff made (MacroTable.inForce_of_entryFor? found) inForce).mpr
      (stays entry found)
    rw [if_pos busy]
    exact .pure rfl

theorem advance (holding : Holding table ⟨origin, some token, top :: below⟩ expansion)
    (fuel : Nat) :
    Yields table True (expansion.advance (TokenStream.move (fuel + 2)))
      (Holding table (Reader.after origin (top :: below))) := by
  have noEnd : expansion.lookahead.isEof = false := by
    rw [holding.shown.1]
    exact holding.shown.2
  unfold Expansion.advance
  rw [if_neg (by simp [noEnd])]
  refine .bind (holding.frames.readStack fuel) ?_
  rintro ⟨lookahead, sources⟩ ⟨shown, frames⟩
  refine .pure ⟨holding.inherited, rfl, ?_, shown, frames⟩
  exact holding.origin.imp_left (Nat.le_trans (Reader.length_takeNext_le _))

theorem begin_call {sources : List TokenStream} {around : List Macro.Entry}
    {outermost : Bool} (inherited : expansion.inherited = none)
    (leftAlone : expansion.leftAlone = false) (begun : expansion.origin = some origin)
    (plain : entry.definition.Plain) (entryInForce : table.InForce entry)
    (inForce : ∀ other ∈ around, table.InForce other) (holds : HoldsAll table frames sources)
    (fuel : Nat) :
    Yields table True
      (expansion.begin (TokenStream.move (fuel + 2))
        { entry, nameToken := token, origin := expansion.origin, outermost,
          lookahead := .endOfInput token.location } around sources)
      (Holding table (Reader.after origin
        (⟨entry.definition.play origin token, entry :: around, outermost⟩ :: frames))) := by
  have readable := @Macro.Plain.readable table True
    { entry, nameToken := token, origin := expansion.origin, outermost, around,
      lookahead := .endOfInput token.location } origin plain begun fun _ => trivial
  refine .bind (Playback.yields_prime ⟨fuel + 1, rfl⟩ around readable rfl rfl) ?_
  rintro _ ⟨found, rfl, stands⟩
  have top := Holds.playback (readable.movedTo found) rfl stands
    (List.forall_mem_cons.mpr ⟨entryInForce, inForce⟩)
  refine .bind ((HoldsAll.push top holds).readStack fuel) ?_
  rintro ⟨lookahead, sources⟩ ⟨shown, frames⟩
  exact .pure ⟨inherited, leftAlone, .inr begun, shown, frames⟩

theorem attempt_call (made : table.Made)
    (plain : ∀ entry ∈ table.entries, entry.definition.Plain)
    (holding : Holding table ⟨origin, some token, top :: below⟩ expansion)
    (named : table.entryFor? token = some entry) (free : entry.name ∉ top.chain.map (·.name))
    (fuel bound : Nat) :
    Yields table True (expansion.attempt (TokenStream.move (fuel + 2)) bound) fun attempt =>
      ∃ next, attempt = .again next ∧ Holding table
        (Reader.after (if below.isEmpty then token else origin)
          (Reader.pushCall entry (if below.isEmpty then token else origin) token top below))
        next := by
  have next : expansion.lookahead = token := holding.shown.1
  have entryInForce := MacroTable.inForce_of_entryFor? named
  have entryPlain := plain entry entryInForce.mem
  have identifier : token.isIdentifier = true := by
    unfold MacroTable.entryFor? at named
    split at named
    next identifier => exact identifier
    next => cases named
  have lookup : table.entry? token.lexeme = some entry := by
    simpa [MacroTable.entryFor?, identifier] using named
  have outermost : (expansion.sources.length == 1) = below.isEmpty := by
    rw [holding.frames.length_eq]
    cases below <;> simp
  unfold Expansion.attempt
  dsimp only
  rw [next, identifier, holding.leftAlone, if_neg (by simp)]
  refine .bind (.lookup _) ?_
  rintro _ rfl
  rw [lookup]
  refine .bind holding.frames.busyOnTop ?_
  rintro _ ⟨rfl, inForce⟩
  rw [if_neg (mt (isBusy_iff made entryInForce inForce).mp free), entryPlain.isFunctionLike,
    outermost, holding.inherited]
  generalize chosen : (if (below.isEmpty && (none : Option Token).isNone) = true then _
    else expansion) = current
  obtain ⟨inherited, leftAlone, sources, begun⟩ : current.inherited = none ∧
      current.leftAlone = false ∧ current.sources = expansion.sources ∧
      current.origin = some (if below.isEmpty then token else origin) := by
    subst chosen
    cases below with
    | nil => exact ⟨rfl, rfl, rfl, rfl⟩
    | cons second below =>
      have known := holding.origin.resolve_left (by simp)
      exact ⟨holding.inherited, holding.leftAlone, rfl, known⟩
  rw [if_neg (by simp), sources]
  refine .bind holding.frames.retireFinished.busyOnTop ?_
  rintro _ ⟨rfl, inForce⟩
  refine .bind (begin_call inherited leftAlone begun entryPlain entryInForce inForce
    holding.frames.retireFinished fuel) fun next holds => ?_
  exact .pure ⟨next, rfl, holds⟩

end Holding

section Runs

variable (made : table.Made) (plain : ∀ entry ∈ table.entries, entry.definition.Plain)
  {reader : Reader} {out : List Token} {steps : Nat} {expansion : Expansion TokenStream}
include made plain

/-- Settling an expansion finds the end of what the machine gives, or its first token; the machine
follows when that is taken. -/
theorem yields_settle (runs : reader.Runs table out steps)
    (holding : Holding table reader expansion) (fuel : Nat) {bound : Nat} (enough : steps < bound) :
    Yields table True (expansion.settle (TokenStream.move (fuel + 2)) bound) fun settled =>
      (settled.lookahead.isEof = true ∧ out = []) ∨
        ∃ rest steps', steps' < steps ∧ settled.lookahead.isEof = false ∧
          out = settled.lookahead :: rest ∧
          Yields table True (settled.advance (TokenStream.move (fuel + 2))) fun advanced =>
            ∃ next, Holding table next advanced ∧ next.Runs table rest steps' := by
  induction runs generalizing expansion bound with
  | done =>
    obtain ⟨bound, rfl⟩ := Nat.exists_eq_succ_of_ne_zero (Nat.ne_of_gt enough)
    refine .bind (holding.attempt_done bound) ?_
    rintro _ rfl
    exact .pure (.inl ⟨holding.shown, rfl⟩)
  | @stay origin token top below out steps stays rest ih =>
    obtain ⟨bound, rfl⟩ := Nat.exists_eq_succ_of_ne_zero (Nat.ne_of_gt (Nat.zero_lt_of_lt enough))
    refine .bind (holding.attempt_stay made stays bound) ?_
    rintro _ rfl
    obtain ⟨shown, noEnd⟩ := holding.shown
    rw [← shown] at noEnd
    refine .pure (.inr ⟨out, steps, Nat.lt_succ_self steps, noEnd, by rw [shown], ?_⟩)
    exact (holding.advance fuel).imp fun advanced next => ⟨_, next, rest⟩
  | @call origin token entry top below out steps named free rest ih =>
    obtain ⟨bound, rfl⟩ := Nat.exists_eq_succ_of_ne_zero (Nat.ne_of_gt (Nat.zero_lt_of_lt enough))
    refine .bind (holding.attempt_call made plain named free fuel bound) ?_
    rintro _ ⟨next, rfl, holds⟩
    refine (ih holds (Nat.lt_of_succ_lt_succ enough)).imp fun settled found => ?_
    refine found.imp_right ?_
    rintro ⟨rest, steps', fewer, found⟩
    exact ⟨rest, steps', Nat.lt_succ_of_lt fewer, found⟩

theorem yields_drain (runs : reader.Runs table out steps)
    (holding : Holding table reader expansion) (fuel : Nat) {bound : Nat}
    (enoughFuel : steps < fuel + 2) (enough : steps < bound) :
    Yields table True (drain (fuel + 3) bound (.expansion expansion)) (·.1 = out) := by
  induction bound generalizing reader out steps expansion with
  | zero => exact absurd enough (Nat.not_lt_zero steps)
  | succ bound ih =>
    have settles := yields_settle made plain runs holding fuel enoughFuel
    have reading : Yields table True (read (fuel + 3) (.expansion expansion)) fun found =>
        (found.1.isEof = true ∧ out = []) ∨
          ∃ rest steps' next advanced, steps' < steps ∧ found.1.isEof = false ∧
            out = found.1 :: rest ∧ found.2 = .expansion advanced ∧
            Holding table next advanced ∧ next.Runs table rest steps' := by
      refine .bind settles.image ?_
      rintro _ ⟨settled, rfl, ⟨ended, rfl⟩ | ⟨rest, steps', fewer, noEnd, rfl, advance⟩⟩
      · have stuck : Yields table True (settled.advance (TokenStream.move (fuel + 2)))
            (· = settled) := by
          unfold Expansion.advance
          rw [if_pos ended]
          exact .pure rfl
        exact .bind stuck.image fun _ _ => .pure (.inl ⟨ended, rfl⟩)
      · refine .bind advance.image ?_
        rintro _ ⟨advanced, rfl, next, holds, runs⟩
        exact .pure (.inr ⟨rest, steps', next, advanced, fewer, noEnd, rfl, rfl, holds, runs⟩)
    refine .bind reading ?_
    rintro ⟨token, stream⟩ (⟨ended, rfl⟩ | ⟨rest, steps', next, advanced, fewer, noEnd, rfl, rfl,
      holds, runs⟩)
    · dsimp only at ended ⊢
      rw [if_pos ended]
      exact .pure rfl
    · dsimp only at noEnd ⊢
      rw [if_neg (by simp [noEnd])]
      have later := ih runs holds (Nat.lt_trans fewer enoughFuel)
        (Nat.lt_of_lt_of_le fewer (Nat.le_of_lt_succ enough))
      refine .bind later ?_
      rintro ⟨rest, stream⟩ rfl
      exact .pure rfl

end Runs

theorem yields_playThrough {playback : Playback TokenStream} {origin : Token}
    (plain : playback.entry.definition.Plain) (begun : playback.origin = some origin)
    (opened : playback.closed = false) (fresh : playback.operands = [])
    (around : List Macro.Entry) (fuel : Nat) {bound : Nat}
    (enough : (playback.entry.definition.play origin playback.nameToken).length < bound) :
    Yields table True (playback.playThrough (fuel + 2) bound around)
      (· = playback.entry.definition.play origin playback.nameToken) := by
  have readable := @Macro.Plain.readable table True { playback with around } origin plain begun
    fun _ => trivial
  refine .bind (Playback.yields_prime ⟨fuel + 1, rfl⟩ around readable opened fresh) ?_
  rintro _ ⟨found, rfl, stands⟩
  refine .bind ((Playback.delivers (readable.movedTo found) opened stands).drain
    ⟨fuel + 1, ⟨fuel, rfl⟩, rfl⟩ enough) ?_
  rintro ⟨tokens, stream⟩ rfl
  exact .pure rfl

/-- A name on the third line of a file. -/
def word (text : String) : Token :=
  { kind := .identifier, lexeme := text, location := ⟨"duet.c", 3, 1⟩ }

def duet (name first second : String) : Macro :=
  { flavor := .objectLike
    name
    body := [word first, word second]
    ops := [.span 0 2]
    nameToken := some (word name) }

/-- Two macros that name each other, one of them itself and the other one the line. -/
def duets : MacroTable :=
  (MacroTable.initial.define (duet "ping" "pong" "ping")).define (duet "pong" "ping" "__LINE__")

theorem plain_duet {name first second : String} (someFirst : first ≠ "")
    (someSecond : second ≠ "") : (duet name first second).Plain := by
  refine .inr (.inr ⟨word name, [word first, word second], .builtin, rfl, ?_, ?_⟩)
  · simp [Token.Solid, word, Token.isEof, someFirst, someSecond]
  · simp [duet, Op.isPaste]

end Preproc
