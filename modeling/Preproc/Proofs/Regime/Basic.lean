import Preproc.Proofs.Macro.Playable
import Preproc.Stream.Basic

/-! # Regimes

A regime says what is kept while the engine runs: of every place, token, macro and scanner, and
which failures are possible. A *silent* regime promises nothing once something has been reported.

`Keeps` is a judgement about actions. It has a precondition, which is a plain proposition about the
values that an action was given, and a condition on its value. The rules below take an action apart
along its binds. `Logic` are the judgements with such rules: what is shown of moving streams is
shown for all of them. The laws that a regime has to obey are gathered in `Sound` and `Lawful`.
-/

namespace Preproc

/-- What is kept while the engine runs. -/
structure Regime where
  /-- Whether the regime is over once something has been reported. -/
  silent : Bool
  place : Location → Prop
  token : Token → Prop
  entry : Macro.Entry → Prop
  scanner : Scanner → Prop
  /-- The failures that are possible. -/
  failure : Failure → Prop
  /-- The tokens from which invocations may begin. -/
  origin : Token → Prop := fun token => place token.location
  /-- The definitions that may be busy for a stream. -/
  busy : List Macro.Entry → Prop := fun _ => True
  /-- The stacks on which an expansion may stand. -/
  stack : List TokenStream → Prop := fun _ => True

namespace Regime

variable (regime : Regime) {α β : Type} {given given' : Prop}

/-- Whether the regime is still in force. -/
def Live (context : Context) : Prop :=
  regime.silent = true → context.sink.diagnostics = #[]

/-- Whether the regime has all macros of the table. -/
def Table (context : Context) : Prop :=
  ∀ entry ∈ context.table.entries, regime.entry entry

/-- Whether some macro of the regime has an op. -/
def Has (op : Op) : Prop :=
  ∃ entry, regime.entry entry ∧ op ∈ entry.definition.ops

/-- Whether invocations may begin with an origin: without one, at any token. -/
def Rooted : Option Token → Prop
  | some token => regime.origin token
  | none => ∀ token, regime.token token → regime.origin token

variable {regime} in
theorem rooted_of_forall (all : ∀ token, regime.origin token) (origin : Option Token) :
    regime.Rooted origin := by
  cases origin with
  | none => exact fun token _ => all token
  | some token => exact all token

/-- An action keeps a regime: whenever the regime is in force at its end, it was so at its
beginning, and from what was given the table, the value and the failure are as they should be. -/
def Keeps (given : Prop) (action : Engine α) (gives : α → Prop) : Prop :=
  ∀ context, match action context with
    | .ok value next => regime.Live next → regime.Live context ∧
        (regime.Table context → given → regime.Table next ∧ gives value)
    | .error failure next => regime.Live next → regime.Live context ∧
        (regime.Table context → given → regime.failure failure)

namespace Keeps

variable {regime} {action : Engine α} {gives gives' : α → Prop}

theorem bind {next : α → Engine β} {wanted : β → Prop} (first : regime.Keeps given' action gives)
    (before : given → given')
    (rest : ∀ value, regime.Keeps (given ∧ gives value) (next value) wanted) :
    regime.Keeps given (action >>= next) wanted := by
  intro context
  have start := first context
  change match EStateM.bind action next context with
    | .ok value next => _
    | .error failure next => _
  unfold EStateM.bind
  cases ran : action context with
  | error failure middle =>
    rw [ran] at start
    intro live
    obtain ⟨live, start⟩ := start live
    exact ⟨live, fun table holds => start table (before holds)⟩
  | ok value middle =>
    rw [ran] at start
    have goOn := rest value middle
    dsimp only
    cases final : next value middle with
    | ok value last =>
      rw [final] at goOn
      intro live
      obtain ⟨live, goOn⟩ := goOn live
      obtain ⟨live, start⟩ := start live
      refine ⟨live, fun table holds => ?_⟩
      obtain ⟨table, gained⟩ := start table (before holds)
      exact goOn table ⟨holds, gained⟩
    | error failure last =>
      rw [final] at goOn
      intro live
      obtain ⟨live, goOn⟩ := goOn live
      obtain ⟨live, start⟩ := start live
      refine ⟨live, fun table holds => ?_⟩
      obtain ⟨table, gained⟩ := start table (before holds)
      exact goOn table ⟨holds, gained⟩

theorem imp (kept : regime.Keeps given action gives) (before : given' → given)
    (after : ∀ value, given' → gives value → gives' value) :
    regime.Keeps given' action gives' := by
  intro context
  have here := kept context
  cases ran : action context with
  | ok value next =>
    rw [ran] at here
    intro live
    obtain ⟨live, here⟩ := here live
    refine ⟨live, fun table holds => ?_⟩
    obtain ⟨table, gained⟩ := here table (before holds)
    exact ⟨table, after value holds gained⟩
  | error failure next =>
    rw [ran] at here
    intro live
    obtain ⟨live, here⟩ := here live
    exact ⟨live, fun table holds => here table (before holds)⟩

theorem pure {value : α} (holds : given → gives value) :
    regime.Keeps given (pure value) gives :=
  fun _ live => ⟨live, fun table given => ⟨table, holds given⟩⟩

theorem throw {failure : Failure} (possible : given → regime.failure failure) :
    regime.Keeps given (throw failure : Engine α) gives :=
  fun _ live => ⟨live, fun _ given => possible given⟩

theorem modify {change : Context → Context} (sink : ∀ context, (change context).sink = context.sink)
    (table : ∀ context, (change context).table = context.table) :
    regime.Keeps given (modify change : Engine Unit) fun _ => True := by
  intro context live
  have same : regime.Live context := by
    intro silent
    rw [← live silent, sink]
  refine ⟨same, fun holds _ => ⟨?_, trivial⟩⟩
  intro entry member
  exact holds entry (by rwa [← table context])

theorem trace (event : Event) : regime.Keeps given (Engine.trace event) fun _ => True :=
  modify (fun _ => rfl) fun _ => rfl

theorem allocate (text : String) : regime.Keeps given (Engine.allocate text) fun _ => True :=
  modify (fun _ => rfl) fun _ => rfl

theorem report (place : Location) (notice : Notice) :
    regime.Keeps given (Engine.report place notice) fun _ => regime.silent = false := by
  intro context live
  cases silent : regime.silent with
  | true => exact absurd (live silent) (by simp [Sink.record])
  | false =>
    have quiet : regime.Live context := fun loud => absurd (silent.symm.trans loud) (by decide)
    exact ⟨quiet, fun table _ => ⟨table, rfl⟩⟩

theorem lookup (name : String) :
    regime.Keeps given (Engine.entry? name) fun found => ∀ entry ∈ found, regime.entry entry := by
  intro context live
  refine ⟨live, fun table _ => ⟨table, ?_⟩⟩
  intro entry found
  exact table entry (List.mem_of_find?_eq_some found)

theorem forM_report {items : List β} (place : β → Location) (notice : β → Notice) :
    regime.Keeps given (items.forM fun item => Engine.report (place item) (notice item))
      fun _ => regime.silent = true → items = [] := by
  cases items with
  | nil => exact pure fun _ _ => rfl
  | cons item items =>
    refine bind (report (place item) (notice item)) id fun _ => ?_
    induction items with
    | nil => exact pure fun ⟨_, loud⟩ silent => absurd (loud.symm.trans silent) (by decide)
    | cons item items ih =>
      refine bind (report (place item) (notice item)) id fun _ => ?_
      exact imp ih And.left fun _ ⟨⟨_, loud⟩, _⟩ _ silent =>
        absurd (loud.symm.trans silent) (by decide)

theorem meet (strict : Bool) (flaw : Option Flaw)
    (possible : ∀ flaw, regime.failure (.flawed flaw)) :
    regime.Keeps given (Scanner.meet strict flaw) fun _ => regime.silent = true → flaw = none := by
  unfold Scanner.meet
  split
  · exact pure fun _ _ => rfl
  · split
    · exact throw fun _ => possible _
    · exact imp (report _ _) id fun _ _ loud silent =>
        absurd (loud.symm.trans silent) (by decide)

end Keeps

theorem keeps_rescan (text : String) (place : Location) :
    regime.Keeps given (Engine.rescan text place)
      fun tokens => tokens = Preproc.rescan text place ∧
        (regime.silent = true → scanFlaws place.file text = []) := by
  have reports (flaws : List Flaw) :
      regime.Keeps given (flaws.forM Engine.reportFlaw)
        fun _ => regime.silent = true → flaws = [] :=
    .forM_report Flaw.location fun flaw => Engine.noticeOf flaw.what
  exact .bind (reports _) id fun _ => .pure fun ⟨_, silence⟩ => ⟨rfl, silence⟩

/-- A judgement about the actions that move streams, under a regime. -/
structure Logic where
  Keeps : {α : Type} → (given : Prop) → Engine α → (gives : α → Prop) → Prop
  bind : ∀ {α β : Type} {given given' : Prop} {action : Engine α} {gives : α → Prop}
    {next : α → Engine β} {wanted : β → Prop}, Keeps given' action gives → (given → given') →
    (∀ value, Keeps (given ∧ gives value) (next value) wanted) →
      Keeps given (action >>= next) wanted
  imp : ∀ {α : Type} {given given' : Prop} {action : Engine α} {gives gives' : α → Prop},
    Keeps given action gives → (given' → given) → (∀ value, given' → gives value → gives' value) →
    Keeps given' action gives'
  pure : ∀ {α : Type} {given : Prop} {value : α} {gives : α → Prop}, (given → gives value) →
    Keeps given (pure value) gives
  throw : ∀ {α : Type} {given : Prop} {failure : Failure} {gives : α → Prop},
    (given → regime.failure failure) → Keeps given (throw failure : Engine α) gives
  report : ∀ {given : Prop} (place : Location) {notice : Notice}, notice ≠ .tooManyErrors →
    Keeps given (Engine.report place notice) fun _ => regime.silent = false
  trace : ∀ {given : Prop} (event : Event), Keeps given (Engine.trace event) fun _ => True
  allocate : ∀ {given : Prop} (text : String), Keeps given (Engine.allocate text) fun _ => True
  rescan : ∀ {given : Prop} (text : String) (place : Location),
    Keeps given (Engine.rescan text place) fun tokens => tokens = Preproc.rescan text place ∧
      (regime.silent = true → scanFlaws place.file text = [])
  lookup : ∀ {given : Prop} (name : String),
    Keeps given (Engine.entry? name) fun found => ∀ entry ∈ found, regime.entry entry

theorem keeps_advance {scanner : Scanner}
    (all : ∀ next, regime.scanner scanner → regime.scanner next)
    (ordinary : ∀ {failure}, failure ≠ .outOfRange → failure ≠ .internal .startsAtPaste →
      regime.failure failure) :
    regime.Keeps (regime.scanner scanner) scanner.advance regime.scanner := by
  unfold Scanner.advance
  split
  · exact .pure (all _)
  split
  · exact .throw fun _ => ordinary (by simp) (by simp)
  · exact .bind (.meet _ _ fun _ => ordinary (by simp) (by simp)) id fun _ =>
      .pure fun kept => all _ kept.1

/-- The judgement that a regime comes with. -/
abbrev logic : regime.Logic where
  Keeps := regime.Keeps
  bind := .bind
  imp := .imp
  pure := .pure
  throw := .throw
  report place _ _ := .report place _
  trace := .trace
  allocate := .allocate
  rescan := keeps_rescan regime
  lookup := .lookup

/-- The laws for the tokens and the macros of a regime. Only two failures have to be thought about:
those of a playback that runs out of ops or of body, and of one that begins with a paste. -/
structure Sound : Prop where
  unknown : regime.place .unknown
  token_place : ∀ {token}, regime.token token → regime.place token.location
  endOfInput : ∀ {place}, regime.place place → regime.token (.endOfInput place)
  spaced : ∀ {token} leadingSpace, regime.token token →
    regime.token (token.withLeadingSpace leadingSpace)
  relocated : ∀ {token place}, regime.token token → regime.place place →
    regime.token (token.relocated place)
  stringized : ∀ {index parameter tokens place} leadingSpace,
    regime.Has (.stringized index parameter) → (∀ token ∈ tokens, regime.token token) →
    regime.place place → regime.token ⟨.string, Token.stringize tokens, place, leadingSpace⟩
  line : ∀ {origin place} leadingSpace, regime.origin origin → regime.place place →
    regime.token ⟨.number, toString origin.location.line, place, leadingSpace⟩
  file : ∀ {origin place} leadingSpace, regime.origin origin → regime.place place →
    regime.token ⟨.string, quoteText origin.location.file, place, leadingSpace⟩
  pasted : ∀ {index second text place} {operands : List Token}, regime.Has (.paste index second) →
    (∀ token ∈ operands, regime.token token) → text = String.join (operands.map (·.lexeme)) →
    regime.place place →
    (regime.silent = true → scanFlaws place.file text = [] ∧ (rescan text place).length = 1) →
    ∀ token ∈ rescan text place, regime.token token
  body : ∀ {entry}, regime.entry entry → ∀ token ∈ entry.definition.body, regime.token token
  finish : ∀ {entry}, regime.entry entry → regime.place entry.definition.endLocation
  playable : ∀ {entry}, regime.entry entry → entry.definition.Playable ∨
    (regime.failure .outOfRange ∧ regime.failure (.internal .startsAtPaste))
  ordinary : ∀ {failure}, failure ≠ .outOfRange → failure ≠ .internal .startsAtPaste →
    regime.failure failure
  scanner_head : ∀ {scanner}, regime.scanner scanner → regime.token scanner.head
  idle : regime.busy [] := by trivial
  around : ∀ {entry busy}, regime.busy (entry :: busy) → regime.busy busy := by intros; trivial

/-- The laws of a regime in which any definitions may be busy, on any stacks. -/
structure Lawful : Prop extends regime.Sound where
  scanner_advance : ∀ {scanner},
    regime.Keeps (regime.scanner scanner) scanner.advance regime.scanner
  anyBusy : ∀ busy, regime.busy busy := by intros; trivial
  anyStack : ∀ streams, regime.stack streams := by intros; trivial

/-- The regime that asks for something only of macros and of failures. -/
def ofMacros (entry : Macro.Entry → Prop) (failure : Failure → Prop) : Regime where
  silent := false
  place _ := True
  token _ := True
  entry
  scanner _ := True
  failure

theorem lawful_ofMacros {kept : Macro.Entry → Prop} {fails : Failure → Prop}
    (playable : ∀ {entry}, kept entry → entry.definition.Playable ∨
      (fails .outOfRange ∧ fails (.internal .startsAtPaste)))
    (ordinary : ∀ {failure}, failure ≠ .outOfRange → failure ≠ .internal .startsAtPaste →
      fails failure) : (ofMacros kept fails).Lawful where
  unknown := trivial
  token_place _ := trivial
  endOfInput _ := trivial
  spaced _ _ := trivial
  relocated _ _ := trivial
  stringized _ _ _ _ := trivial
  line _ _ _ := trivial
  file _ _ _ := trivial
  pasted _ _ _ _ _ _ _ := trivial
  body _ _ _ := trivial
  finish _ := trivial
  playable
  ordinary
  scanner_head _ := trivial
  scanner_advance := keeps_advance _ (fun _ _ => trivial) ordinary

/-- What a regime keeps of a call: its macro, the tokens that came with it and where they stand. -/
structure Call (playback : Playback TokenStream) : Prop where
  entry : regime.entry playback.entry
  name : regime.place playback.nameToken.location
  origin : regime.Rooted playback.origin
  arguments : ∀ token ∈ playback.arguments.tokens, regime.token token
  chain : regime.busy playback.chain

/-- What a regime keeps of a stream: every token and every macro in it, and that playback goes
through the ops of its macro. -/
inductive Stream : TokenStream → Prop where
  | queue {queue : TokenQueue} (tokens : ∀ token ∈ queue.tokens, regime.token token)
      (finish : regime.token queue.finish) (busy : regime.busy queue.busy) : Stream (.queue queue)
  | scanner {scanner : Scanner} (kept : regime.scanner scanner) : Stream (.scanner scanner)
  | playback {playback : Playback TokenStream} (call : regime.Call playback)
      (pending : playback.pending <:+ playback.entry.definition.ops)
      (lookahead : regime.token playback.lookahead)
      (operands : ∀ stream ∈ playback.operands, Stream stream) : Stream (.playback playback)
  | expansion {expansion : Expansion TokenStream}
      (inherited : regime.Rooted expansion.inherited) (origin : regime.Rooted expansion.origin)
      (lookahead : regime.token expansion.lookahead) (stack : regime.stack expansion.sources)
      (sources : ∀ stream ∈ expansion.sources, Stream stream) : Stream (.expansion expansion)

/-- What a regime keeps of a stack of streams. -/
def Streams (streams : List TokenStream) : Prop :=
  ∀ stream ∈ streams, regime.Stream stream

namespace Logic

variable {regime} (logic : regime.Logic)

theorem Keeps.imp {logic : regime.Logic} {action : Engine α} {gives gives' : α → Prop}
    (kept : logic.Keeps given action gives) (before : given' → given)
    (after : ∀ value, given' → gives value → gives' value) : logic.Keeps given' action gives' :=
  logic.imp kept before after

/-- A way to move streams that keeps the regime. -/
def Moves (move : TokenStream.Mover) : Prop :=
  ∀ kind stream, logic.Keeps (regime.Stream stream) (move kind stream) regime.Stream

/-- A way to move streams that keeps the regime where an argument begins to be expanded. -/
def Nests (move : TokenStream.Mover) : Prop :=
  ∀ queue origin, logic.Keeps
    (regime.Stream (.queue queue) ∧ regime.Rooted origin)
    (TokenStream.expandWith move (.queue queue) origin) regime.Stream

end Logic

end Regime

end Preproc
