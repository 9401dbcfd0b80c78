import Preproc.Proofs.Expansion.Follows
import Preproc.Proofs.Expansion.Sturdy
import Preproc.Proofs.Regime.Expansion
import Preproc.Proofs.Source.Scanned

/-! # Expansion breaks no promise

While the macros of a table are ready to be played, expanding a list of tokens fails in one way
only: the bound on the number of steps may be reached. Each promise inside the engine is kept for a
reason of its own. The arguments of a call are as many as its macro takes, and their spans lie
inside them; an end that playback carries comes from operands that have ended; a finished
invocation is never the bottom of a stack; and the origin of an expansion is known as soon as
anything stands above the stream that it expands.

Main statement: `Preproc.TokenStream.proceeding_move`.
-/

namespace Preproc

open Engine (Meets Proceeds)
open TokenStream (Mover readWith peekWith expandWith Operand Operands Sources Ended Upper Proceeding
  operand_expansion operands_singleton not_sources_nil)

variable {table : MacroTable} {move : Mover}

section Playing

open Playback

variable {playback : Playback TokenStream} {tokens : List Token}

theorem operand_ofList (place : Option Location) (endless : ∀ token ∈ tokens, token.isEof = false) :
    Operand (.queue (.ofList tokens place)) :=
  .queue endless rfl

variable {index : Int}

theorem proceeds_item {α : Type} {items : List α} {value : α}
    (found : Index.get? items index = some value) :
    Proceeds table (item items index) (· = value) := by
  unfold item
  rw [found]
  exact .pure rfl

theorem proceeds_slice {first last : Int} (place : Location)
    (busy : List Macro.Entry) (endless : ∀ token ∈ tokens, token.isEof = false)
    (inside : 0 ≤ first ∧ first ≤ last ∧ last ≤ tokens.length) :
    Proceeds table (require (TokenQueue.slice tokens first (some last) (some place) busy))
      fun queue => Operand (.queue queue) := by
  unfold TokenQueue.slice
  simp only [Option.getD_some, inside, and_self, ↓reduceIte]
  apply Meets.pure
  refine .queue (fun token member => ?_) rfl
  exact endless token (List.mem_of_mem_take (List.mem_of_mem_drop member))

/-- The span of the argument of a parameter. That of the variadic parameter goes on to the end of
the last argument, and is empty if there is none. -/
def Playback.spanOf (playback : Playback TokenStream) (index : Int) : Int × Int :=
  let definition := playback.entry.definition
  let spans := playback.arguments.spans
  if definition.isVariadic && index + 1 == definition.parameterCount then
    let stop := (spans.getLast?.map (·.2)).getD 0
    (((Index.get? spans index).map (·.1)).getD stop, stop)
  else (Index.get? spans index).getD (0, 0)

theorem Arguments.Suit.argumentSpan (suit : playback.arguments.Suit playback.entry.definition)
    (front : 0 ≤ index) (counted : index < playback.entry.definition.parameterCount) :
    playback.argumentSpan index = pure (playback.spanOf index) ∧
      0 ≤ (playback.spanOf index).1 ∧ (playback.spanOf index).1 ≤ (playback.spanOf index).2 ∧
      (playback.spanOf index).2 ≤ playback.arguments.tokens.length := by
  unfold Playback.argumentSpan Playback.spanOf
  by_cases variadic : (playback.entry.definition.isVariadic &&
      index + 1 == playback.entry.definition.parameterCount) = true
  · rw [if_pos variadic, if_pos variadic]
    cases last : playback.arguments.spans.getLast? with
    | none =>
      have empty : playback.arguments.spans = [] := List.getLast?_eq_none_iff.mp last
      simp [empty, Index.get?]
    | some final =>
      have ends : final.2 = playback.arguments.tokens.length := suit.final final last
      cases found : Index.get? playback.arguments.spans index with
      | none => exact ⟨rfl, by simp [ends]⟩
      | some span =>
        obtain ⟨first, ordered, inside⟩ := suit.inside span (Regime.mem_of_get? found)
        refine ⟨rfl, first, ?_, Int.le_of_eq ends⟩
        simpa [ends] using Int.le_trans ordered inside
  · have short := Macro.lt_length_of_acceptsCount suit.counted counted
      (Bool.eq_false_iff.mpr variadic)
    rw [if_neg variadic, if_neg variadic, if_neg (by omega), Playback.item]
    obtain ⟨span, found⟩ := Regime.get?_isSome front short
    rw [found]
    exact ⟨rfl, suit.inside span (Regime.mem_of_get? found)⟩

theorem proceeds_argumentSpan (called : playback.Called) (front : 0 ≤ index)
    (counted : index < playback.entry.definition.parameterCount) :
    Proceeds table (playback.argumentSpan index) fun span =>
      0 ≤ span.1 ∧ span.1 ≤ span.2 ∧ span.2 ≤ playback.arguments.tokens.length := by
  obtain ⟨spanned, inside⟩ := called.suit.argumentSpan front counted
  rw [spanned]
  exact .pure inside

theorem proceeds_argumentTokens (called : playback.Called) (front : 0 ≤ index)
    (counted : index < playback.entry.definition.parameterCount) :
    Proceeds table (playback.argumentTokens index) fun _ => True :=
  .bind (proceeds_argumentSpan called front counted) fun _ _ => .pure trivial

theorem proceeds_argumentQueue (called : playback.Called) (front : 0 ≤ index)
    (counted : index < playback.entry.definition.parameterCount) (busy : List Macro.Entry) :
    Proceeds table (playback.argumentQueue index busy) fun queue => Operand (.queue queue) := by
  apply Meets.bind (proceeds_argumentSpan called front counted)
  rintro ⟨first, last⟩ inside
  exact proceeds_slice _ busy called.suit.endless inside

theorem proceeds_synthesize {kind : TokenKind} (text : String) (place : Token)
    (goesOn : kind ≠ .eof) : Proceeds table (synthesize kind text place) Operand := by
  apply Meets.bind (.allocate text)
  intro _ _
  exact .pure (operand_ofList _ (by simpa [Token.isEof] using goesOn))

theorem proceeds_originToken (called : playback.Called) :
    Proceeds table playback.originToken fun _ => True := by
  obtain ⟨token, known⟩ := Option.isSome_iff_exists.mp called.origin
  unfold originToken
  rw [known]
  exact .pure trivial

theorem TokenStream.Proceeding.expandWith (proceeding : Proceeding table move) (queue : TokenQueue)
    (origin : Option Token) :
    Proceeds table (expandWith move (.queue queue) origin) Operand := by
  apply Meets.bind (proceeding.readStack (.base queue))
  rintro ⟨lookahead, sources⟩ ⟨kept, short⟩
  refine .pure (operand_expansion.mpr ⟨kept, id, fun long => ?_⟩)
  exact absurd (Nat.lt_of_lt_of_le long short) (Nat.lt_irrefl 1)

theorem TokenStream.Proceeding.openOp (proceeding : Proceeding table move)
    (called : playback.Called) {op : Op}
    (member : op ∈ playback.entry.definition.ops) (operand : op.isPaste = false) :
    Proceeds table (playback.openOp move op) Operand := by
  have ready := called.ready
  have within := ready.within op member
  have inside := ready.inside op member
  cases op with
  | span first last =>
    apply Meets.bind (proceeds_slice _ [] ready.endless within)
    intro queue operand
    exact .pure operand
  | unexpanded index parameter =>
    apply Meets.bind (proceeds_argumentQueue called within.1 within.2 [])
    intro queue operand
    exact .pure operand
  | expanded index parameter =>
    apply Meets.bind (proceeds_argumentQueue called within.1 within.2 playback.around)
    intro queue _
    exact proceeding.expandWith queue playback.origin
  | stringized index parameter =>
    obtain ⟨⟨mark, found⟩, _⟩ := inside
    apply Meets.bind (proceeds_argumentTokens called within.1 within.2)
    intro tokens _
    apply Meets.bind (proceeds_item found)
    intro mark _
    exact proceeds_synthesize _ mark (by decide)
  | line first second | file first second =>
    apply Meets.bind (proceeds_originToken called)
    intro origin _
    exact proceeds_synthesize _ _ (by decide)
  | paste index second => cases operand

theorem proceeds_pasteTokens {operands : List Token} (mark : Token)
    (endless : ∀ token ∈ operands, token.isEof = false) :
    Proceeds table (pasteTokens operands mark) fun pasted =>
      ∀ token ∈ pasted, token.isEof = false := by
  unfold pasteTokens
  dsimp only
  split
  · exact .pure (by simp)
  apply Meets.bind (.allocate _)
  intro _ _
  apply Meets.bind (.rescan trivial _ mark.location)
  rintro _ rfl
  have chosen (pasted : List Token) (solid : ∀ token ∈ pasted, token.isEof = false) :
      Proceeds table
        (if pasted.isEmpty then pure (operands.map (·.relocated mark.location)) else pure pasted)
        fun pasted => ∀ token ∈ pasted, token.isEof = false := by
    split
    · apply Meets.pure
      intro token member
      obtain ⟨operand, among, rfl⟩ := List.mem_map.mp member
      exact endless operand among
    · exact .pure solid
  have solid : ∀ token ∈ rescan (String.join (operands.map (·.lexeme))) mark.location,
      token.isEof = false := fun token member => (solid_of_mem_rescan member).1
  split
  · apply Meets.bind (.report trivial _ _)
    intro _ _
    exact chosen _ solid
  · exact chosen _ solid

theorem TokenStream.Proceeding.exhausted (proceeding : Proceeding table move) {token : Token}
    {operands : List TokenStream}
    (kept : Operands operands) (ended : token.isEof = true → Ended operands) :
    Proceeds table (exhausted move token operands) fun found => Operands found.2 := by
  apply Meets.bind (proceeding.peekOperands kept)
  rintro ⟨next, operands'⟩ ⟨kept, shows⟩
  have noLoss : ¬ (!next.isEof && token.isEof) = true := by
    intro lost
    simp only [Bool.and_eq_true, Bool.not_eq_true'] at lost
    rw [shows (ended lost.2)] at lost
    cases lost.1
  dsimp only
  rw [if_neg noLoss]
  exact .pure kept

theorem TokenStream.Proceeding.join (proceeding : Proceeding table move) (called : playback.Called)
    {left : Option Token} (mark : Token) {op : Op} (member : op ∈ playback.entry.definition.ops)
    (operand : op.isPaste = false) (endless : ∀ token ∈ left, token.isEof = false) :
    Proceeds table (playback.join move left mark op) Operands := by
  apply Meets.bind (proceeding.openOp called member operand)
  intro opened operand
  apply Meets.bind (proceeding.readOperands (operands_singleton operand))
  rintro ⟨right, operands⟩ ⟨⟨_, operands⟩, _⟩
  have both : ∀ token ∈ (if right.isEof then left.toList else left.toList ++ [right]),
      token.isEof = false := by
    intro token among
    split at among
    · exact endless token (by simpa using among)
    · next goesOn =>
        rcases List.mem_append.mp among with among | among
        · exact endless token (by simpa using among)
        · rw [List.mem_singleton.mp among]
          exact Bool.eq_false_iff.mpr goesOn
  apply Meets.bind (proceeds_pasteTokens mark both)
  intro pasted solid
  refine .pure ⟨List.cons_ne_nil _ _, List.forall_mem_cons.mpr ⟨operand_ofList _ ?_, operands⟩⟩
  exact Regime.forall_mem_spaceFirst (fun _ plain => plain) solid

/-- What is kept where playback stands. -/
def Found.Sturdy (definition : Macro) (found : Found) : Prop :=
  found.pending <:+ definition.ops ∧ Operands found.operands

variable (proceeding : Proceeding table move)

include proceeding

/-- Carrying on breaks no promise: the induction follows the ops that are still to come, and an end
that is carried comes from streams that have ended. -/
theorem TokenStream.Proceeding.carry (called : playback.Called) (token : Token)
    (own : Bool) (pending : List Op) (operands : List TokenStream)
    (suffix : pending <:+ playback.entry.definition.ops) (kept : Operands operands)
    (ended : token.isEof = true → Ended operands) :
    Proceeds table (playback.carry move token own pending operands)
      (Found.Sturdy playback.entry.definition) := by
  have playable := called.ready.toPlayable
  fun_induction Playback.carry move playback token own pending operands with
  | case1 own token operands =>
    apply Meets.bind (proceeding.exhausted kept ended)
    rintro ⟨done, operands'⟩ kept
    exact .pure ⟨suffix, kept⟩
  | case2 own token index second operands => cases playable.isPaste_last suffix
  | case3 token own index second op pending operands ihOwn ihOther =>
    have later := Regime.suffix_of_cons suffix
    have member : op ∈ playback.entry.definition.ops := later.subset (List.mem_cons_self ..)
    obtain ⟨mark, found⟩ := playable.inside _ (suffix.subset (List.mem_cons_self ..))
    have operand := playable.isPaste_after_paste suffix rfl
    apply Meets.bind (proceeding.exhausted kept ended)
    rintro ⟨done, operands'⟩ kept
    dsimp only
    split
    · exact .pure ⟨suffix, kept⟩
    apply Meets.bind (proceeds_item found)
    intro mark _
    generalize chosen : (if own && !token.isEof then some token else none) = left
    have endless : ∀ other ∈ left, other.isEof = false := by
      rintro other rfl
      split at chosen <;> cases chosen
      next isOwn => simpa using (Bool.and_eq_true_iff.mp isOwn).2
    apply Meets.bind (proceeding.join called mark member operand endless)
    intro operands kept
    split
    · apply Meets.bind (proceeding.readOperands kept)
      rintro ⟨token', operands⟩ ⟨kept, ended⟩
      exact ihOwn token' operands (Regime.suffix_of_cons later) kept ended
    · next other =>
        have goesOn : token.isEof = false := by
          simp only [Bool.or_eq_true, not_or, Bool.not_eq_true] at other
          exact other.2
        refine ihOther operands (Regime.suffix_of_cons later) kept fun ends => ?_
        rw [goesOn] at ends
        cases ends
  | case4 own token op pending operands notLast notPaste ihOwn ihOther =>
    have operand := Op.isPaste_eq_false notLast notPaste
    have later := Regime.suffix_of_cons suffix
    apply Meets.bind (proceeding.exhausted kept ended)
    rintro ⟨done, operands'⟩ kept
    dsimp only
    split
    · exact .pure ⟨suffix, kept⟩
    apply Meets.bind (proceeding.openOp called (suffix.subset (List.mem_cons_self ..)) operand)
    intro opened operand
    split
    · apply Meets.bind (proceeding.readOperands (operands_singleton operand))
      rintro ⟨token', operands⟩ ⟨kept, ended⟩
      exact ihOwn token' operands later kept ended
    · next goesOn =>
        exact ihOther opened later (operands_singleton operand) fun ends => absurd ends goesOn

theorem TokenStream.Proceeding.fetch (sturdy : playback.Sturdy) :
    Proceeds table (playback.fetch move) Playback.Sturdy := by
  have called := sturdy.called
  unfold Playback.fetch
  split
  · exact .pure ⟨{ called with }, sturdy.pending, sturdy.present, sturdy.operands⟩
  · apply Meets.bind (proceeding.readOperands ⟨sturdy.present, sturdy.operands⟩)
    rintro ⟨token, operands⟩ ⟨kept, ended⟩
    apply Meets.bind
      (proceeding.carry called token true playback.pending operands sturdy.pending kept ended)
    intro found ⟨suffix, kept⟩
    exact .pure ⟨{ called with }, suffix, kept.1, kept.2⟩

theorem TokenStream.Proceeding.prime (called : playback.Called)
    (around : List Macro.Entry) (fresh : playback.operands = []) :
    Proceeds table (playback.prime move around) Playback.Sturdy := by
  have playable := called.ready.toPlayable
  have inside : ({ playback with around } : Playback TokenStream).Called := { called with }
  apply Meets.bind (.trace _)
  intro _ _
  dsimp only
  split
  · next empty => exact absurd empty playable.ops_ne_nil
  · next op pending whole =>
      have suffix : op :: pending <:+ playback.entry.definition.ops := whole ▸ List.suffix_rfl
      apply Meets.bind (proceeding.openOp inside (suffix.subset (List.mem_cons_self ..))
        (playable.isPaste_first whole))
      intro operand kept
      apply proceeding.fetch
      refine ⟨{ called with }, Regime.suffix_of_cons suffix, List.cons_ne_nil _ _, ?_⟩
      rw [fresh]
      exact List.forall_mem_singleton.mpr kept

theorem TokenStream.Proceeding.playback_advance (sturdy : playback.Sturdy) :
    Proceeds table (playback.advance move) Playback.Sturdy := by
  unfold Playback.advance
  split
  · exact .pure sturdy
  · exact proceeding.fetch sturdy

end Playing

theorem suit_of_parameterless {definition : Macro} (parameterless : definition.parameters = []) :
    Arguments.Suit {} definition where
  endless := by simp
  inside := by simp
  final := by simp
  counted := by
    simp [Macro.acceptsCount, Macro.requiredArguments, Macro.isVariadic, Macro.parameterCount,
      parameterless]

theorem TokenStream.Sources.retireFinished {streams : List TokenStream}
    (sources : Sources streams) :
    Sources (Expansion.retireFinished streams) := by
  cases sources with
  | base queue => exact .base queue
  | queue queue sources => exact .queue queue sources
  | playback called pending present operands sources =>
    simp only [Expansion.retireFinished]
    split
    · exact sources
    · exact .playback called pending present operands sources

/-- The regime of macros that are ready: only the bound on the number of steps may be reached. -/
def Regime.readied : Regime :=
  ofMacros (·.definition.Ready) (· = .outOfFuel)

/-- Safety with a table of ready macros, as a judgement of the regime. -/
abbrev Regime.proceeding (ready : ∀ entry ∈ table.entries, entry.definition.Ready) :
    readied.Logic :=
  readied.meeting (fun _ => id) rfl ready

section Expanding

open Expansion

variable {expansion : Expansion TokenStream}

/-- The origin is known where an invocation begins: nothing stands above the bottom, something does,
or the origin is inherited. -/
theorem Expansion.Sturdy.origin_rooted
    (sturdy : expansion.Sturdy) : expansion.rooted.origin.isSome = true := by
  unfold Expansion.rooted
  split
  · rfl
  next other =>
    cases inherited : expansion.inherited.isSome with
    | true => exact sturdy.inherited inherited
    | false =>
      apply sturdy.origin
      have present : expansion.sources ≠ [] := by
        intro empty
        exact not_sources_nil (empty ▸ sturdy.sources)
      have positive := List.length_pos_iff.mpr present
      have notOne : expansion.sources.length ≠ 1 := by
        intro one
        apply other
        rw [Option.isSome_eq_false_iff] at inherited
        simp [one, inherited]
      omega

variable (proceeding : Proceeding table move)
  (ready : ∀ entry ∈ table.entries, entry.definition.Ready)

include proceeding ready

/-- The rules for calls of macros that are ready. -/
def TokenStream.Proceeding.calls : (Regime.proceeding ready).Calls move where
  Holds := Expansion.Sturdy
  Reading entry expansion streams :=
    (entry.definition.Ready ∧ expansion.origin.isSome = true) ∧ Sources streams
  Showing entry expansion _ streams :=
    (entry.definition.Ready ∧ expansion.origin.isSome = true) ∧ Sources streams
  Ready entry expansion streams :=
    (entry.definition.Ready ∧ expansion.origin.isSome = true) ∧ Sources streams
  Good _ _ := True
  outOfFuel := rfl
  present sturdy := .inl fun empty => not_sources_nil (empty ▸ sturdy.sources)
  ready_present begun := .inl fun empty => not_sources_nil (empty ▸ begun.2)
  start sturdy _ known _ _ := ⟨⟨⟨known, sturdy.origin_rooted⟩, sturdy.sources⟩,
    ⟨known, sturdy.origin_rooted⟩, sturdy.sources.retireFinished⟩
  peek _ _ _ reading := (proceeding.peekStack reading.2).imp fun _ found => ⟨reading.1, found.1⟩
  reading := id
  good _ _ := trivial
  read _ _ _ _ _ _ showing := (proceeding.readStack showing.2).imp fun _ found =>
    ⟨trivial, ⟨showing.1, found.1⟩, showing.1, found.1⟩
  stays reading := ⟨reading.2, fun _ => reading.1.2, fun _ => reading.1.2⟩
  replays showing _ _ := ⟨.queue _ showing.2, fun _ => showing.1.2, fun _ => showing.1.2⟩
  begins entry expansion arguments around streams := by
    rintro ⟨⟨⟨⟨ready, known⟩, sources⟩, _⟩, _, fit⟩
    have suit : arguments.Suit entry.definition := by
      obtain ⟨spanned, counted⟩ | ⟨objectLike, rfl⟩ := fit
      · exact ⟨spanned, counted⟩
      · exact suit_of_parameterless (ready.parameterless objectLike)
    refine .bind (proceeding.prime ⟨ready, known, suit⟩ around rfl) fun primed sturdy => ?_
    refine .bind (proceeding.readStack (.playback sturdy.called sturdy.pending sturdy.present
      sturdy.operands sources)) ?_
    rintro ⟨lookahead, rest⟩ ⟨sources, _⟩
    exact .pure ⟨sources, fun _ => known, fun _ => known⟩
  skips _ _ _ reading := (proceeding.readStack reading.2).imp fun _ found =>
    ⟨found.1, fun _ => reading.1.2, fun _ => reading.1.2⟩

omit proceeding ready in
theorem proceeds_settle_ended (fuel : Nat) (ends : expansion.lookahead.isEof = true) :
    Proceeds table (settle move fuel expansion) (· = expansion) := by
  have notName : expansion.lookahead.isIdentifier = false := by
    have isEnd : expansion.lookahead.kind = .eof := by simpa [Token.isEof] using ends
    simp [Token.isIdentifier, isEnd]
  cases fuel with
  | zero => exact .throw rfl
  | succ fuel =>
    unfold Expansion.settle Expansion.attempt
    simp only [notName, Bool.not_false, Bool.true_or, ↓reduceIte, pure_bind]
    exact .pure rfl

theorem TokenStream.Proceeding.settle_operand (fuel : Nat) (sturdy : expansion.Sturdy) :
    Proceeds table (Expansion.settle move fuel expansion) fun settled =>
      settled.Sturdy ∧ (expansion.lookahead.isEof = true → settled.lookahead.isEof = true) := by
  by_cases ends : expansion.lookahead.isEof = true
  · apply (proceeds_settle_ended fuel ends).imp
    intro settled same
    rw [same]
    exact ⟨sturdy, id⟩
  · apply ((proceeding.calls ready).settle fuel expansion sturdy).imp
    intro settled sturdy
    exact ⟨sturdy, fun ended => absurd ended ends⟩

omit ready in
theorem TokenStream.Proceeding.advance_operand (sturdy : expansion.Sturdy) :
    Proceeds table (expansion.advance move) fun advanced =>
      advanced.Sturdy ∧ (expansion.lookahead.isEof = true → advanced.lookahead.isEof = true) := by
  unfold Expansion.advance
  split
  · exact .pure ⟨sturdy, id⟩
  next goesOn =>
    apply Meets.bind (proceeding.readStack sturdy.sources)
    rintro ⟨lookahead, rest⟩ ⟨sources, shorter⟩
    refine .pure ⟨⟨sources, sturdy.inherited, fun long => ?_⟩, fun ends => absurd ends goesOn⟩
    exact sturdy.origin (Nat.lt_of_lt_of_le long shorter)

theorem TokenStream.Proceeding.moveWith (fuel : Nat) : Proceeding table
    (TokenStream.moveWith move fuel) where
  operand := by
    intro kind stream operand
    cases operand with
    | queue endless ends =>
      cases kind with
      | settle => exact .pure ⟨.queue endless ends, id⟩
      | advance =>
        refine .pure ⟨.queue (fun token member => ?_) ends, fun ended => ?_⟩
        · exact endless token (List.mem_of_mem_tail member)
        · rename_i queue
          cases queued : queue.tokens with
          | nil =>
            simpa [TokenStream.head, TokenQueue.head, TokenQueue.advance, queued] using ends
          | cons token rest =>
            have goesOn := endless token (by simp [queued])
            simp [TokenStream.head, TokenQueue.head, queued, goesOn] at ended
    | @expansion expansion sources inherited origin =>
      have sturdy : expansion.Sturdy := ⟨sources, inherited, origin⟩
      cases kind with
      | settle =>
        apply Meets.bind (proceeding.settle_operand ready fuel sturdy)
        rintro settled ⟨sturdy, ends⟩
        exact .pure ⟨operand_expansion.mpr sturdy, ends⟩
      | advance =>
        apply Meets.bind (proceeding.advance_operand sturdy)
        rintro advanced ⟨sturdy, ends⟩
        exact .pure ⟨operand_expansion.mpr sturdy, ends⟩
  queue := by
    intro kind queue
    cases kind <;> exact .pure ⟨_, rfl⟩
  upper := by
    intro kind stream upper
    cases stream with
    | queue queue => cases kind <;> exact .pure trivial
    | playback playback =>
      cases kind with
      | settle => exact .pure upper
      | advance =>
        apply Meets.bind (proceeding.playback_advance upper)
        intro advanced sturdy
        exact .pure sturdy
    | scanner _ => exact upper.elim
    | expansion _ => exact upper.elim

end Expanding

variable (ready : ∀ entry ∈ table.entries, entry.definition.Ready)

include ready

/-- **No promise is broken.** Whatever the fuel, a move reaches its bound or succeeds. -/
theorem TokenStream.proceeding_move (fuel : Nat) : Proceeding table (TokenStream.move fuel) := by
  induction fuel with
  | zero => exact ⟨fun _ _ _ => .throw rfl, fun _ _ => .throw rfl, fun _ _ _ => .throw rfl⟩
  | succ fuel ih => exact ih.moveWith ready fuel

theorem proceeds_drain (fuel bound : Nat) {stream : TokenStream} (operand : Operand stream) :
    Proceeds table (stream.drain fuel bound) fun _ => True := by
  induction bound generalizing stream with
  | zero => exact .throw rfl
  | succ bound ih =>
    apply Meets.bind ((TokenStream.proceeding_move ready fuel).readWith_operand operand)
    rintro ⟨token, rest⟩ ⟨operand, _⟩
    dsimp only
    split
    · exact .pure trivial
    apply Meets.bind (ih operand)
    intro _ _
    exact .pure trivial

end Preproc
