import Preproc.Proofs.Macro.Ready
import Preproc.Proofs.Regime.Calls

/-! # Streams that break no promise

`Proceeds` is safety for actions that leave the macro table alone: from every context with the
table an action succeeds, or its bound on the number of steps is reached, and nothing else happens.
This module says what of a stream keeps its moves safe, in each of the two places that a stream can
have. The *operands* of playback hold no end before the last token, so that an operand which has
ended shows nothing but ends. The *sources* of an expansion have a queue at their bottom, which no
read removes, and playbacks above it whose macros and arguments fit each other.
-/

namespace Preproc

/-- From every context with the table, an action reaches its bound or succeeds, keeps the table and
gives a value as stated. -/
abbrev Engine.Proceeds {α : Type} (table : MacroTable) (action : Engine α) (condition : α → Prop) :
    Prop :=
  Meets (· = .outOfFuel) table True action condition

open Engine (Meets Proceeds)

structure Arguments.Suit (arguments : Arguments) (definition : Macro) : Prop
    extends arguments.Spanned where
  counted : definition.acceptsCount arguments.spans.length = true

/-- What never changes of a playback: its macro is ready, its origin known, and its arguments are
those of a call. -/
structure Playback.Called (playback : Playback TokenStream) : Prop where
  ready : playback.entry.definition.Ready
  origin : playback.origin.isSome = true
  suit : playback.arguments.Suit playback.entry.definition

namespace TokenStream

mutual

/-- A stream from which playback takes the tokens of an op: a queue without ends, or an
expansion. -/
inductive Operand : TokenStream → Prop
  | queue {queue : TokenQueue} (endless : ∀ token ∈ queue.tokens, token.isEof = false)
      (ends : queue.finish.isEof = true) : Operand (.queue queue)
  | expansion {expansion : Expansion TokenStream} (sources : Sources expansion.sources)
      (inherited : expansion.inherited.isSome = true → expansion.origin.isSome = true)
      (origin : 1 < expansion.sources.length → expansion.origin.isSome = true) :
      Operand (.expansion expansion)

/-- The streams of an expansion: a queue at the bottom, queues and playbacks above it. -/
inductive Sources : List TokenStream → Prop
  | base (queue : TokenQueue) : Sources [.queue queue]
  | queue (queue : TokenQueue) {below : List TokenStream} (sources : Sources below) :
      Sources (.queue queue :: below)
  | playback {playback : Playback TokenStream} {below : List TokenStream}
      (called : playback.Called) (pending : playback.pending <:+ playback.entry.definition.ops)
      (present : playback.operands ≠ []) (operands : ∀ stream ∈ playback.operands, Operand stream)
      (sources : Sources below) : Sources (.playback playback :: below)

end

end TokenStream

open TokenStream (Operand Sources)

/-- What is kept of an expansion. -/
structure Expansion.Sturdy (expansion : Expansion TokenStream) : Prop where
  sources : Sources expansion.sources
  inherited : expansion.inherited.isSome = true → expansion.origin.isSome = true
  origin : 1 < expansion.sources.length → expansion.origin.isSome = true

/-- What is kept of a playback. -/
structure Playback.Sturdy (playback : Playback TokenStream) : Prop where
  called : playback.Called
  pending : playback.pending <:+ playback.entry.definition.ops
  present : playback.operands ≠ []
  operands : ∀ stream ∈ playback.operands, Operand stream

namespace TokenStream

theorem operand_expansion {expansion : Expansion TokenStream} :
    Operand (.expansion expansion) ↔ expansion.Sturdy := by
  constructor
  · intro operand
    cases operand with
    | expansion sources inherited origin => exact ⟨sources, inherited, origin⟩
  · intro ⟨sources, inherited, origin⟩
    exact .expansion sources inherited origin

/-- What is kept of a stream above the bottom of a stack. -/
def Upper : TokenStream → Prop
  | .queue _ => True
  | .playback invocation => invocation.Sturdy
  | .scanner _ | .expansion _ => False

theorem not_sources_nil : ¬ Sources [] :=
  nofun

variable {stream : TokenStream}

theorem sources_single : Sources [stream] ↔ ∃ queue, stream = .queue queue := by
  constructor
  · intro sources
    cases sources with
    | base queue => exact ⟨queue, rfl⟩
    | queue queue below => exact ⟨queue, rfl⟩
    | playback called pending present operands below => exact absurd below not_sources_nil
  · rintro ⟨queue, rfl⟩
    exact .base queue

theorem sources_cons {top second : TokenStream} {below : List TokenStream} :
    Sources (top :: second :: below) ↔ Upper top ∧ Sources (second :: below) := by
  constructor
  · intro sources
    cases sources with
    | queue queue sources => exact ⟨trivial, sources⟩
    | playback called pending present operands sources =>
      exact ⟨⟨called, pending, present, operands⟩, sources⟩
  · intro ⟨upper, sources⟩
    cases top with
    | queue queue => exact .queue queue sources
    | playback playback =>
      exact .playback upper.called upper.pending upper.present upper.operands sources
    | scanner scanner => exact upper.elim
    | expansion expansion => exact upper.elim

theorem Sources.push {top : TokenStream} {below : List TokenStream} (upper : Upper top)
    (sources : Sources below) : Sources (top :: below) := by
  cases below with
  | nil => exact absurd sources not_sources_nil
  | cons second below => exact sources_cons.mpr ⟨upper, sources⟩

/-- A way to move streams that breaks no promise. A queue stays a queue, and an operand that shows
an end goes on to show one. -/
structure Proceeding (table : MacroTable) (move : Mover) : Prop where
  operand : ∀ kind stream, Operand stream → Proceeds table (move kind stream) fun moved =>
    Operand moved ∧ (stream.head.isEof = true → moved.head.isEof = true)
  queue : ∀ kind queue, Proceeds table (move kind (.queue queue)) fun moved =>
    ∃ rest, moved = .queue rest
  upper : ∀ kind stream, Upper stream → Proceeds table (move kind stream) Upper

variable {table : MacroTable} {move : Mover}

section Stacks

variable (proceeding : Proceeding table move)

include proceeding

theorem Proceeding.readWith_upper (upper : Upper stream) :
    Proceeds table (readWith move stream) fun found => Upper found.2 := by
  apply Meets.bind (proceeding.upper .settle stream upper)
  intro settled upper
  apply Meets.bind (proceeding.upper .advance settled upper)
  intro rest upper
  exact .pure upper

theorem Proceeding.readWith_queue (queue : TokenQueue) :
    Proceeds table (readWith move (.queue queue)) fun found => ∃ rest, found.2 = .queue rest := by
  apply Meets.bind (proceeding.queue .settle queue)
  rintro _ ⟨settled, rfl⟩
  apply Meets.bind (proceeding.queue .advance settled)
  intro rest remains
  exact .pure remains

theorem Proceeding.peekWith_upper (upper : Upper stream) :
    Proceeds table (peekWith move stream) fun found => Upper found.2 :=
  .bind (proceeding.upper .settle stream upper) fun _ upper => .pure upper

theorem Proceeding.peekWith_queue (queue : TokenQueue) :
    Proceeds table (peekWith move (.queue queue)) fun found => ∃ rest, found.2 = .queue rest :=
  .bind (proceeding.queue .settle queue) fun _ remains => .pure remains

variable {streams : List TokenStream}

theorem Proceeding.readStack (sources : Sources streams) :
    Proceeds table (readStack move streams) fun found =>
      Sources found.2 ∧ found.2.length ≤ streams.length := by
  induction streams with
  | nil => exact absurd sources not_sources_nil
  | cons top below ih =>
    cases below with
    | nil =>
      obtain ⟨queue, rfl⟩ := sources_single.mp sources
      apply Meets.bind (proceeding.readWith_queue queue)
      rintro ⟨token, _⟩ ⟨rest, rfl⟩
      exact .pure ⟨.base rest, Nat.le_refl 1⟩
    | cons second below =>
      obtain ⟨upper, sources⟩ := sources_cons.mp sources
      apply Meets.bind (proceeding.readWith_upper upper)
      rintro ⟨token, rest⟩ upper
      dsimp only
      split
      · apply (ih sources).imp
        intro found ⟨sources, shorter⟩
        exact ⟨sources, Nat.le_succ_of_le shorter⟩
      · exact .pure ⟨sources_cons.mpr ⟨upper, sources⟩, Nat.le_refl _⟩

theorem Proceeding.peekStack (sources : Sources streams) :
    Proceeds table (peekStack move streams) fun found =>
      Sources found.2 ∧ found.2.length = streams.length := by
  induction streams with
  | nil => exact absurd sources not_sources_nil
  | cons top below ih =>
    cases below with
    | nil =>
      obtain ⟨queue, rfl⟩ := sources_single.mp sources
      apply Meets.bind (proceeding.peekWith_queue queue)
      rintro ⟨token, _⟩ ⟨rest, rfl⟩
      exact .pure ⟨.base rest, rfl⟩
    | cons second below =>
      obtain ⟨upper, sources⟩ := sources_cons.mp sources
      apply Meets.bind (proceeding.peekWith_upper upper)
      rintro ⟨token, rest⟩ upper
      dsimp only
      split
      · apply Meets.bind (ih sources)
        rintro ⟨token, below'⟩ ⟨sources, same⟩
        refine .pure ⟨sources.push upper, ?_⟩
        exact congrArg (· + 1) same
      · exact .pure ⟨sources_cons.mpr ⟨upper, sources⟩, rfl⟩

/-- What is kept of the streams of an op. -/
def Operands (streams : List TokenStream) : Prop :=
  streams ≠ [] ∧ ∀ stream ∈ streams, Operand stream

/-- Streams of an op that show nothing but ends. -/
def Ended (streams : List TokenStream) : Prop :=
  ∀ stream ∈ streams, stream.head.isEof = true

omit proceeding in
theorem operands_singleton (operand : Operand stream) : Operands [stream] :=
  ⟨List.cons_ne_nil _ _, List.forall_mem_singleton.mpr operand⟩

theorem Proceeding.readWith_operand (operand : Operand stream) :
    Proceeds table (readWith move stream) fun found =>
      Operand found.2 ∧ (found.1.isEof = true → found.2.head.isEof = true) := by
  apply Meets.bind (proceeding.operand .settle stream operand)
  intro settled ⟨operand, _⟩
  apply Meets.bind (proceeding.operand .advance settled operand)
  intro rest kept
  exact .pure kept

theorem Proceeding.peekWith_operand (operand : Operand stream) :
    Proceeds table (peekWith move stream) fun found =>
      Operand found.2 ∧ (stream.head.isEof = true → found.1.isEof = true) :=
  .bind (proceeding.operand .settle stream operand) fun _ kept => .pure kept

theorem Proceeding.readOperands (operands : Operands streams) :
    Proceeds table (TokenStream.readStack move streams) fun found =>
      Operands found.2 ∧ (found.1.isEof = true → Ended found.2) := by
  obtain ⟨present, operands⟩ := operands
  induction streams with
  | nil => exact absurd rfl present
  | cons top below ih =>
    obtain ⟨operand, operands⟩ := List.forall_mem_cons.mp operands
    rw [TokenStream.readStack, Stack.read_cons]
    apply Meets.bind (proceeding.readWith_operand operand)
    rintro ⟨token, rest⟩ ⟨operand, ended⟩
    dsimp only
    split
    next done => exact ih (by simp_all) operands
    next goesOn =>
      refine .pure ⟨⟨List.cons_ne_nil _ _, List.forall_mem_cons.mpr ⟨operand, operands⟩⟩, ?_⟩
      intro ends
      have bottom : below = [] := by simpa [show token.isEof = true from ends] using goesOn
      exact bottom ▸ List.forall_mem_singleton.mpr (ended ends)

theorem Proceeding.peekOperands (operands : Operands streams) :
    Proceeds table (TokenStream.peekStack move streams) fun found =>
      Operands found.2 ∧ (Ended streams → found.1.isEof = true) := by
  obtain ⟨present, operands⟩ := operands
  induction streams with
  | nil => exact absurd rfl present
  | cons top below ih =>
    obtain ⟨operand, operands⟩ := List.forall_mem_cons.mp operands
    rw [TokenStream.peekStack, Stack.peek_cons]
    apply Meets.bind (proceeding.peekWith_operand operand)
    rintro ⟨token, rest⟩ ⟨operand, shows⟩
    dsimp only
    split
    next done =>
      apply Meets.bind (ih (by simp_all) operands)
      rintro ⟨token, below'⟩ ⟨⟨_, operands⟩, shows⟩
      refine .pure ⟨⟨List.cons_ne_nil _ _, ?_⟩, fun ended => ?_⟩
      · exact List.forall_mem_cons.mpr ⟨operand, operands⟩
      · exact shows (List.forall_mem_cons.mp ended).2
    next goesOn =>
      refine .pure ⟨⟨List.cons_ne_nil _ _, List.forall_mem_cons.mpr ⟨operand, operands⟩⟩, ?_⟩
      exact fun ended => shows (List.forall_mem_cons.mp ended).1

end Stacks

end TokenStream

end Preproc
