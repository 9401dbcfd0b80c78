import Preproc.Proofs.Expansion.Identity

/-! # The site that builtins tell

`__LINE__` and `__FILE__` tell the place of a token. Which token this is comes down from one
invocation to the next: an invocation has the origin of the expansion that begins it, and gives it
to the expansions of its arguments.

The *site* is the last token of the list that was met as the name of a macro. `expandSited` expands
a list and keeps track of the site beside it. Every token that comes out was `Made` from the list
and from the bodies of macros, and what builtins made on the way spells the place of the site at
which the token came out.

Main statement: `builtins_tell_callSite`.
-/

namespace Preproc

open TokenStream (move Mover readStack peekStack readWith peekWith direct_move)
open Engine (Ensures Grants Meets bind_ok_iff)

/-- Whether some macro of the table has an op. -/
def MacroTable.Has (table : MacroTable) (op : Op) : Prop :=
  ∃ entry, entry ∈ table.entries ∧ op ∈ entry.definition.ops

/-- A token that expansion makes as long as builtins tell one site. It is a token of the list or of
a body, with its spacing or place changed or not; it is made from such tokens by an op; or it is
what a builtin spells. -/
inductive Token.Made (table : MacroTable) (tokens : List Token) (site : Option Token) : Token → Prop
  | given {token : Token} (member : token ∈ tokens) : Made table tokens site token
  | body {entry : Macro.Entry} {token : Token} (known : entry ∈ table.entries)
      (member : token ∈ entry.definition.body) : Made table tokens site token
  | endOfInput (place : Location) : Made table tokens site (.endOfInput place)
  | spaced {token : Token} (leadingSpace : Bool) (made : Made table tokens site token) :
      Made table tokens site (token.withLeadingSpace leadingSpace)
  | relocated {token : Token} (place : Location) (made : Made table tokens site token) :
      Made table tokens site (token.relocated place)
  | stringized {index parameter : Int} {operands : List Token}
      (has : table.Has (.stringized index parameter))
      (made : ∀ operand ∈ operands, Made table tokens site operand) (place : Location)
      (leadingSpace : Bool) :
      Made table tokens site ⟨.string, Token.stringize operands, place, leadingSpace⟩
  | pasted {index second : Int} {operands : List Token} {token : Token} {place : Location}
      (has : table.Has (.paste index second))
      (made : ∀ operand ∈ operands, Made table tokens site operand)
      (member : token ∈ rescan (String.join (operands.map (·.lexeme))) place) :
      Made table tokens site token
  | line {origin : Token} (told : site = some origin) (place : Location) (leadingSpace : Bool) :
      Made table tokens site ⟨.number, toString origin.location.line, place, leadingSpace⟩
  | file {origin : Token} (told : site = some origin) (place : Location) (leadingSpace : Bool) :
      Made table tokens site ⟨.string, quoteText origin.location.file, place, leadingSpace⟩

/-- Whether an op makes tokens from others. -/
def Op.combines : Op → Bool
  | .stringized _ _ | .paste _ _ => true
  | _ => false

/-- Only builtins make tokens of a kind: there are none in the list and in bodies, and no macro
stringizes or pastes. -/
structure MacroTable.Withholds (table : MacroTable) (tokens : List Token) (kind : TokenKind) :
    Prop where
  given : ∀ token ∈ tokens, token.kind ≠ kind
  body : ∀ entry ∈ table.entries, ∀ token ∈ entry.definition.body, token.kind ≠ kind
  apart : ∀ entry ∈ table.entries, ∀ op ∈ entry.definition.ops, op.combines = false
  goesOn : kind ≠ .eof

theorem Token.Made.told {table : MacroTable} {tokens : List Token} {site : Option Token}
    {token : Token} (made : token.Made table tokens site)
    (withheld : table.Withholds tokens token.kind) : ∃ origin, site = some origin ∧
      (token.kind = .number ∧ token.lexeme = toString origin.location.line ∨
        token.kind = .string ∧ token.lexeme = quoteText origin.location.file) := by
  induction made with
  | given member => exact absurd rfl (withheld.given _ member)
  | body known member => exact absurd rfl (withheld.body _ known _ member)
  | endOfInput place => exact absurd rfl withheld.goesOn
  | spaced leadingSpace _ ih => exact ih withheld
  | relocated place _ ih => exact ih withheld
  | stringized has | pasted has =>
    obtain ⟨entry, known, member⟩ := has
    cases withheld.apart entry known _ member
  | @line origin told => exact ⟨origin, told, .inl ⟨rfl, rfl⟩⟩
  | @file origin told => exact ⟨origin, told, .inr ⟨rfl, rfl⟩⟩

namespace Regime

variable {table : MacroTable} {tokens : List Token} {site : Option Token}

/-- The regime of streams whose invocations all began at one site. -/
def sited (table : MacroTable) (tokens : List Token) (site : Option Token) : Regime where
  silent := false
  place _ := True
  token := Token.Made table tokens site
  entry := (· ∈ table.entries)
  scanner _ := False
  failure _ := True
  origin token := site = some token

theorem lawful_sited : (sited table tokens site).Lawful where
  unknown := trivial
  token_place _ := trivial
  endOfInput _ := .endOfInput _
  spaced leadingSpace made := made.spaced leadingSpace
  relocated made _ := made.relocated _
  stringized leadingSpace has made _ := .stringized has made _ leadingSpace
  line leadingSpace told _ := .line told _ leadingSpace
  file leadingSpace told _ := .file told _ leadingSpace
  pasted has made joined _ _ _ member := .pasted has made (joined ▸ member)
  body known _ member := .body known member
  finish _ := trivial
  playable _ := .inr ⟨trivial, trivial⟩
  ordinary _ _ := trivial
  scanner_head := False.elim
  scanner_advance := keeps_advance _ (fun _ => False.elim) fun _ _ => trivial

abbrev siting (table : MacroTable) (tokens : List Token) (site : Option Token) :
    (sited table tokens site).Logic :=
  (sited table tokens site).meeting (fun _ _ => True.intro) rfl fun _ member => member

theorem moves_siting (fuel : Nat) : (siting table tokens site).Moves (move fuel) :=
  lawful_sited.moves _ (fun _ => False.elim) fuel

end Regime

open Regime (sited lawful_sited siting moves_siting)

namespace Expansion

/-- The macro that the next token names, if it is not busy where the token comes from. -/
def called? (table : MacroTable) (expansion : Expansion TokenStream) : Option Macro.Entry :=
  match expansion.sources with
  | [] => none
  | top :: _ =>
    if expansion.leftAlone then none
    else (table.entryFor? expansion.lookahead).filter fun entry => !isBusy entry top.busy

/-- The site from the next token on: this token, if it was read from the list itself and met as the
name of a macro. -/
def siteAt (table : MacroTable) (site : Option Token) (expansion : Expansion TokenStream) :
    Option Token :=
  if expansion.sources.length = 1 ∧ (expansion.called? table).isSome then some expansion.lookahead
  else site

/-- Begins invocations until the next token stays, and keeps track of the site. -/
def settleSited (table : MacroTable) (fuel : Nat) :
    (bound : Nat) → Option Token → Expansion TokenStream →
      Engine (Option Token × Expansion TokenStream)
  | 0, _, _ => throw .outOfFuel
  | bound + 1, site, expansion => do
    let site := expansion.siteAt table site
    match ← expansion.attempt (move fuel) bound with
    | .stays expansion => return (site, expansion)
    | .again expansion => settleSited table fuel bound site expansion

/-- Takes tokens up to the end, each with the site where it was taken. -/
def drainSited (table : MacroTable) (fuel : Nat) :
    (bound : Nat) → Option Token → Expansion TokenStream → Engine (List (Token × Option Token))
  | 0, _, _ => throw .outOfFuel
  | bound + 1, site, expansion => do
    let (site, settled) ← expansion.settleSited table fuel fuel site
    let next ← settled.advance (move fuel)
    if settled.lookahead.isEof then return []
    return (settled.lookahead, site) :: (← next.drainSited table fuel bound site)

end Expansion

/-- The tokens of a list after macro expansion, each with its site. -/
def expandSited (table : MacroTable) (tokens : List Token) (finish : Location) :
    (fuel : Nat) → Engine (List (Token × Option Token))
  | 0 => throw .outOfFuel
  | fuel + 1 =>
    (Expansion.opened none (.ofList tokens (some finish))).drainSited table fuel (fuel + 1) none

section Based

variable {table : MacroTable} {tokens : List Token} {site : Option Token}
  {streams : List TokenStream}

/-- A queue of tokens of the list, and their end. -/
structure TokenQueue.Left (tokens : List Token) (queue : TokenQueue) : Prop where
  among : ∀ token ∈ queue.tokens, token ∈ tokens
  finish : ∃ place, queue.finish = .endOfInput place

namespace TokenQueue.Left

variable {queue : TokenQueue} (left : queue.Left tokens)
include left

theorem advance : queue.advance.Left tokens :=
  ⟨fun token member => left.among token (List.mem_of_mem_tail member), left.finish⟩

theorem head : (∃ place, queue.head = .endOfInput place) ∨ queue.head ∈ tokens := by
  unfold TokenQueue.head
  cases queued : queue.tokens with
  | nil => exact .inl left.finish
  | cons first rest => exact .inr (left.among first (by simp [queued]))

theorem made_head : queue.head.Made table tokens site := by
  obtain ⟨place, same⟩ | member := left.head
  · exact same ▸ .endOfInput place
  · exact .given member

theorem isEof_or_mem : queue.head.isEof = true ∨ queue.head ∈ tokens :=
  left.head.imp_left fun ended => ended.elim fun _ same => same ▸ rfl

end TokenQueue.Left

/-- A stack of streams that tell one site, above what is left of the list. -/
inductive TokenStream.Based (table : MacroTable) (tokens : List Token) (site : Option Token) :
    List TokenStream → Prop
  | bottom {queue : TokenQueue} (left : queue.Left tokens) :
      Based table tokens site [.queue queue]
  | push {stream : TokenStream} {streams : List TokenStream}
      (kept : (sited table tokens site).Stream stream) (rest : Based table tokens site streams) :
      Based table tokens site (stream :: streams)

open TokenStream (Based)

namespace TokenStream.Based

variable (based : Based table tokens site streams)
include based

theorem ne_nil : streams ≠ [] := by
  cases based <;> simp

/-- The site may change where nothing is above the list. -/
theorem change (single : streams.length = 1) (other : Option Token) :
    Based table tokens other streams := by
  cases based with
  | bottom left => exact .bottom left
  | push _ rest => simp [rest.ne_nil] at single

theorem retireFinished : Based table tokens site (Expansion.retireFinished streams) := by
  cases based with
  | bottom left => exact .bottom left
  | @push stream streams kept rest =>
    simp only [Expansion.retireFinished]
    split
    · exact rest
    · exact .push kept rest

theorem read (fuel : Nat) : Grants table True (readStack (move fuel) streams) fun found =>
    found.1.Made table tokens site ∧ Based table tokens site found.2 ∧
      found.2.length ≤ streams.length ∧
      (found.2.length = 1 → found.1.isEof = true ∨ found.1 ∈ tokens) := by
  induction based with
  | @bottom queue left =>
    refine .bind
      (((direct_move fuel).readQueue queue).also ((direct_move fuel).readFlat trivial)) ?_
    rintro ⟨_, _⟩ ⟨rfl, rfl, _⟩
    exact .pure ⟨left.made_head, .bottom left.advance, Nat.le_refl _, fun _ => left.isEof_or_mem⟩
  | @push stream streams kept rest ih =>
    rw [TokenStream.readStack, Stack.read_push _ _ rest.ne_nil]
    refine .bind (lawful_sited.readWith (moves_siting fuel) stream kept) ?_
    rintro ⟨token, stream'⟩ ⟨made, kept'⟩
    dsimp only
    split
    · apply ih.imp
      rintro found ⟨made, based, shorter, named⟩
      exact ⟨made, based, Nat.le_succ_of_le shorter, named⟩
    · refine .pure ⟨made, .push kept' rest, Nat.le_refl _, fun single => ?_⟩
      simp [rest.ne_nil] at single

theorem peek (fuel : Nat) : Grants table True (peekStack (move fuel) streams) fun found =>
    found.1.Made table tokens site ∧ Based table tokens site found.2 := by
  induction based with
  | bottom left =>
    refine .bind ((direct_move fuel).peekFlat trivial) ?_
    rintro _ rfl
    exact .pure ⟨left.made_head, .bottom left⟩
  | @push stream streams kept rest ih =>
    rw [TokenStream.peekStack, Stack.peek_push _ _ rest.ne_nil]
    refine .bind (lawful_sited.peekWith (moves_siting fuel) stream kept) ?_
    rintro ⟨token, stream'⟩ ⟨made, kept'⟩
    dsimp only
    split
    · refine .bind ih fun found shown => .pure ⟨shown.1, .push kept' shown.2⟩
    · exact .pure ⟨made, .push kept' rest⟩

end TokenStream.Based

end Based

namespace Expansion

open TokenStream (Based)

variable {table : MacroTable} {tokens : List Token} {expansion : Expansion TokenStream}

/-- What is kept of the expansion of a list: its origin is a token of the list, or there is none as
long as no macro was met, and everything in it was made there. -/
structure Sited (table : MacroTable) (tokens : List Token) (expansion : Expansion TokenStream) :
    Prop where
  inherited : expansion.inherited = none
  met : ∀ token ∈ expansion.origin, token ∈ tokens
  idle : expansion.origin = none → expansion.sources.length = 1
  lookahead : expansion.lookahead.Made table tokens expansion.origin
  sources : Based table tokens expansion.origin expansion.sources

/-- The next token was read from the list, if nothing is above the list. -/
def Fresh (tokens : List Token) (expansion : Expansion TokenStream) : Prop :=
  expansion.sources.length = 1 → expansion.lookahead.isEof = true ∨ expansion.lookahead ∈ tokens

/-- What is kept of an expansion while a macro is being called in it. -/
structure Calling (table : MacroTable) (tokens : List Token) (entry : Macro.Entry)
    (expansion : Expansion TokenStream) : Prop where
  known : entry ∈ table.entries
  inherited : expansion.inherited = none
  begun : expansion.origin.isSome = true
  met : ∀ token ∈ expansion.origin, token ∈ tokens
  lookahead : expansion.lookahead.Made table tokens expansion.origin

theorem Calling.sited {entry : Macro.Entry} (calling : expansion.Calling table tokens entry)
    {lookahead : Token} {streams : List TokenStream} (leftAlone : Bool)
    (made : lookahead.Made table tokens expansion.origin)
    (based : Based table tokens expansion.origin streams) :
    Sited table tokens { expansion with lookahead, leftAlone, sources := streams } where
  inherited := calling.inherited
  met := calling.met
  idle missing := by
    have begun := calling.begun
    change expansion.origin = none at missing
    simp [missing] at begun
  lookahead := made
  sources := based

theorem Sited.calling_rooted {entry : Macro.Entry} (sited : expansion.Sited table tokens)
    (fresh : expansion.Fresh tokens) (named : expansion.lookahead.isIdentifier = true)
    (known : entry ∈ table.entries) : expansion.rooted.Calling table tokens entry ∧
      Based table tokens expansion.rooted.origin expansion.sources := by
  unfold rooted
  split
  next root =>
    have single : expansion.sources.length = 1 := by simp_all
    have member := (fresh single).resolve_left (by simp_all [Token.isEof, Token.isIdentifier])
    refine ⟨⟨known, sited.inherited, rfl, ?_, .given member⟩, sited.sources.change single _⟩
    rintro token ⟨⟩
    exact member
  next above =>
    have many : expansion.sources.length ≠ 1 := by simpa [sited.inherited] using above
    have begun : expansion.origin.isSome = true := by
      rw [Option.isSome_iff_ne_none]
      exact fun missing => many (sited.idle missing)
    exact ⟨⟨known, sited.inherited, begun, sited.met, sited.lookahead⟩, sited.sources⟩

/-- The rules for calls above a list. -/
def sitedCalls (table : MacroTable) (tokens : List Token) (fuel : Nat) :
    (siting table tokens none).Calls (move fuel) where
  Holds expansion := expansion.Sited table tokens ∧ expansion.Fresh tokens
  Rests := Sited table tokens
  Reading entry expansion streams := expansion.Calling table tokens entry ∧
    Based table tokens expansion.origin streams
  Showing entry expansion token streams := expansion.Calling table tokens entry ∧
    token.Made table tokens expansion.origin ∧ Based table tokens expansion.origin streams
  Ready entry expansion streams := expansion.Calling table tokens entry ∧
    Based table tokens expansion.origin streams
  Good expansion token := token.Made table tokens expansion.origin
  rests := And.left
  outOfFuel := trivial
  present _ := .inr trivial
  ready_present _ := .inr trivial
  start holds named known _ _ := by
    obtain ⟨calling, based⟩ := holds.1.calling_rooted holds.2 named known
    exact ⟨⟨calling, based⟩, calling, based.retireFinished⟩
  peek _ _ streams reading := (reading.2.peek fuel).imp fun _ shown => ⟨reading.1, shown⟩
  reading shows := ⟨shows.1, shows.2.2⟩
  good shows _ := shows.2.1
  read _ _ _ streams _ _ shows := (shows.2.2.read fuel).imp fun _ found =>
    ⟨found.1, ⟨shows.1, found.2.1⟩, shows.1, found.2.1⟩
  stays reading := reading.1.sited _ reading.1.lookahead reading.2
  replays shows _ good := shows.1.sited _ shows.1.lookahead
    (.push (.queue good (.endOfInput _) trivial) shows.2.2)
  begins entry expansion arguments around streams := by
    rintro ⟨⟨⟨calling, based⟩, _⟩, good, _⟩
    have origin : (sited table tokens expansion.origin).Rooted expansion.origin := by
      obtain ⟨token, begun⟩ := Option.isSome_iff_exists.mp calling.begun
      rw [begun]
      rfl
    refine .bind (lawful_sited.prime (moves_siting fuel) _ around
      ⟨⟨⟨calling.known, trivial, origin, good, trivial⟩, .endOfInput _⟩, Regime.streams_nil⟩)
      fun primed kept => ?_
    refine .bind ((Based.push kept based).read fuel) ?_
    rintro ⟨lookahead, sources⟩ ⟨made, based, _, fresh⟩
    exact .pure ⟨calling.sited _ made based, fresh⟩
  skips _ _ streams reading := (reading.2.read fuel).imp fun _ found =>
    ⟨reading.1.sited _ found.1 found.2.1, found.2.2.2⟩

/-- Where invocations begin after an attempt. -/
def Attempt.origin : Attempt → Option Token
  | .stays expansion | .again expansion => expansion.origin

theorem ensures_begin (move : Mover) (invocation : Playback TokenStream)
    (around : List Macro.Entry) (sources : List TokenStream) :
    Ensures (expansion.begin move invocation around sources) (·.origin = expansion.origin) :=
  .after fun _ => .after fun _ => .pure rfl

theorem ensures_attemptCall (move : Mover) (fuel : Nat) (entry : Macro.Entry) (outermost : Bool) :
    Ensures (expansion.attemptCall move fuel entry outermost) (·.origin = expansion.origin) := by
  refine .after fun skipped => .after ?_
  rintro ⟨next, shown⟩
  dsimp only
  split
  · exact .after fun _ => .pure rfl
  refine .after ?_
  rintro ⟨parenthesis, opened⟩
  refine .after ?_
  rintro ⟨collected, rest⟩
  cases collected with
  | unclosed tokens => exact .after fun _ => .pure rfl
  | closed arguments =>
    dsimp only
    split
    · exact .after fun _ => .bind (ensures_begin ..) fun _ same => .pure same
    · exact .after fun _ => .after fun _ => .pure rfl

theorem called?_eq {top : TokenStream} {below : List TokenStream}
    (stack : expansion.sources = top :: below) : expansion.called? table =
      if !expansion.lookahead.isIdentifier || expansion.leftAlone then none
      else (table.entry? expansion.lookahead.lexeme).filter fun entry =>
        !isBusy entry top.busy := by
  unfold called? MacroTable.entryFor?
  cases expansion.leftAlone <;> cases expansion.lookahead.isIdentifier <;> simp [stack]

/-- **One attempt** moves the origin to the site of its next token. -/
theorem origin_attempt {move : Mover} {fuel : Nat} {context next : Context} {attempt : Attempt}
    (present : expansion.sources ≠ []) (inherited : expansion.inherited = none)
    (ran : expansion.attempt move fuel context = .ok attempt next) :
    attempt.origin = expansion.siteAt context.table expansion.origin := by
  obtain ⟨top, below, stack⟩ := List.exists_cons_of_ne_nil present
  have calls : expansion.called? context.table = _ := called?_eq stack
  have rests (unnamed : expansion.called? context.table = none) :
      expansion.origin = expansion.siteAt context.table expansion.origin := by
    simp [siteAt, unnamed]
  rw [attempt_eq] at ran
  split at ran
  next passed =>
    cases ran
    exact rests (by rw [calls, if_pos passed])
  next looks =>
  rw [if_neg looks] at calls
  obtain ⟨found, middle, looked, ran⟩ := bind_ok_iff.mp ran
  have same : context.table.entry? expansion.lookahead.lexeme = found := by
    cases looked
    rfl
  rw [same] at calls
  cases found with
  | none =>
    cases ran
    exact rests calls
  | some entry =>
    have looked : busyOnTop expansion.sources = pure top.busy := by
      rw [stack]
      rfl
    dsimp only at ran
    rw [looked, pure_bind] at ran
    split at ran
    next busy =>
      cases ran
      exact rests (by simp [calls, busy])
    next idle =>
    have moved : expansion.rooted.origin = expansion.siteAt context.table expansion.origin := by
      by_cases single : expansion.sources.length = 1 <;>
        simp [rooted, siteAt, calls, idle, single, inherited]
    rw [← moved]
    split at ran
    · exact (ensures_attemptCall ..).gives ran
    · obtain ⟨around, _, _, ran⟩ := bind_ok_iff.mp ran
      obtain ⟨begun, _, began, ran⟩ := bind_ok_iff.mp ran
      cases ran
      exact (ensures_begin ..).gives began

theorem isSome_entryFor?_siteAt {site : Option Token} {token : Token}
    (named : ∀ token ∈ site, (table.entryFor? token).isSome = true)
    (set : token ∈ expansion.siteAt table site) : (table.entryFor? token).isSome = true := by
  unfold siteAt at set
  split at set
  next met =>
    cases set
    by_contra missing
    have called := met.2
    unfold called? at called
    split at called
    · cases called
    · simp_all
  next => exact named token set

section Run

variable {fuel bound : Nat} {context next : Context}

/-- **Settling**, over all its attempts. -/
theorem Sited.settle (sited : expansion.Sited context.table tokens)
    (fresh : expansion.Fresh tokens)
    (named : ∀ token ∈ expansion.origin, (context.table.entryFor? token).isSome = true)
    {settled : Expansion TokenStream}
    (ran : expansion.settle (move fuel) bound context = .ok settled next) :
    expansion.settleSited context.table fuel bound expansion.origin context =
        .ok (settled.origin, settled) next ∧
      next.table = context.table ∧ settled.Sited context.table tokens ∧
        ∀ token ∈ settled.origin, (context.table.entryFor? token).isSome = true := by
  induction bound generalizing expansion context with
  | zero => cases ran
  | succ bound ih =>
    obtain ⟨attempt, middle, attempted, ran⟩ := bind_ok_iff.mp ran
    have site := origin_attempt sited.sources.ne_nil sited.inherited attempted
    obtain ⟨same, _, kept⟩ := ((sitedCalls context.table tokens fuel).attempt bound expansion
      ⟨sited, fresh⟩).done rfl attempted
    have named' : ∀ token ∈ attempt.origin, (context.table.entryFor? token).isSome = true :=
      fun token set => isSome_entryFor?_siteAt named (site ▸ set)
    cases attempt with
    | stays rest =>
      cases ran
      refine ⟨bind_ok_iff.mpr ⟨_, _, attempted, ?_⟩, same, kept, named'⟩
      rw [← site]
      rfl
    | again rest =>
      rw [← same] at kept named'
      obtain ⟨ran', table, sited', named''⟩ := ih kept.1 kept.2 named' ran
      rw [same] at ran' table sited' named''
      refine ⟨bind_ok_iff.mpr ⟨_, _, attempted, ?_⟩, table, sited', named''⟩
      rw [← site]
      exact ran'

theorem Sited.advance (sited : expansion.Sited table tokens) (fuel : Nat) :
    Grants table True (expansion.advance (move fuel)) fun advanced =>
      advanced.origin = expansion.origin ∧ advanced.Sited table tokens ∧ advanced.Fresh tokens := by
  unfold Expansion.advance
  split
  next ended => exact .pure ⟨rfl, sited, fun _ => .inl ended⟩
  refine .bind (sited.sources.read fuel) ?_
  rintro ⟨lookahead, sources⟩ ⟨made, based, shorter, fresh⟩
  refine .pure ⟨rfl, { sited with lookahead := made, sources := based, idle := fun missing => ?_ },
    fresh⟩
  exact Nat.le_antisymm (sited.idle missing ▸ shorter) (List.length_pos_iff.mpr based.ne_nil)

theorem drain_expansion (fuel bound : Nat) (expansion : Expansion TokenStream) :
    (TokenStream.expansion expansion).drain (fuel + 1) (bound + 1) = do
      let settled ← expansion.settle (move fuel) fuel
      let next ← settled.advance (move fuel)
      if settled.lookahead.isEof then return ([], .expansion next)
      let (rest, last) ← (TokenStream.expansion next).drain (fuel + 1) bound
      return (settled.lookahead :: rest, last) := by
  rw [TokenStream.drain]
  simp only [TokenStream.read, readWith, move, TokenStream.moveWith, bind_assoc, pure_bind]
  rfl

/-- **Draining**: every token was made at the site where it was taken. -/
theorem Sited.drain (sited : expansion.Sited context.table tokens) (fresh : expansion.Fresh tokens)
    (named : ∀ token ∈ expansion.origin, (context.table.entryFor? token).isSome = true)
    {out : List Token} {last : TokenStream}
    (ran : (TokenStream.expansion expansion).drain (fuel + 1) bound context = .ok (out, last) next)
      :
    ∃ handed, expansion.drainSited context.table fuel bound expansion.origin context =
        .ok handed next ∧ handed.map Prod.fst = out ∧ ∀ pair ∈ handed,
          pair.1.Made context.table tokens pair.2 ∧ ∀ site ∈ pair.2,
            site ∈ tokens ∧ (context.table.entryFor? site).isSome = true := by
  induction bound generalizing expansion context out with
  | zero => cases ran
  | succ bound ih =>
    rw [drain_expansion] at ran
    obtain ⟨settled, middle, settles, ran⟩ := bind_ok_iff.mp ran
    obtain ⟨advanced, later, advances, ran⟩ := bind_ok_iff.mp ran
    obtain ⟨settles', same, rests, met⟩ := sited.settle fresh named settles
    obtain ⟨same', _, origin, sited', fresh'⟩ := (rests.advance fuel).done same advances
    have begins (handed : List (Token × Option Token)) (goesOn : (do
        if settled.lookahead.isEof then return []
        return (settled.lookahead, settled.origin) ::
          (← advanced.drainSited context.table fuel bound settled.origin) : Engine _) later =
          .ok handed next) :
        expansion.drainSited context.table fuel (bound + 1) expansion.origin context =
          .ok handed next :=
      bind_ok_iff.mpr ⟨_, _, settles', bind_ok_iff.mpr ⟨_, _, advances, goesOn⟩⟩
    split at ran
    next ended =>
      cases ran
      refine ⟨[], begins [] ?_, rfl, by simp⟩
      rw [if_pos ended]
      rfl
    next goesOn =>
      obtain ⟨⟨rest, _⟩, _, drains, ran⟩ := bind_ok_iff.mp ran
      cases ran
      rw [← same'] at sited' met
      obtain ⟨handed, drains', tokens', made⟩ := ih sited' fresh' (origin ▸ met) drains
      rw [same'] at drains' made met
      refine ⟨(settled.lookahead, settled.origin) :: handed, begins _ ?_, congrArg _ tokens',
        List.forall_mem_cons.mpr ⟨⟨rests.lookahead,
          fun site set => ⟨rests.met site set, met site set⟩⟩,
          made⟩⟩
      rw [if_neg goesOn]
      exact bind_ok_iff.mpr ⟨handed, _, origin ▸ drains', rfl⟩

end Run

theorem sited_opened (table : MacroTable) (tokens : List Token) (finish : Location) :
    (opened none (.ofList tokens (some finish))).Sited table tokens ∧
      (opened none (.ofList tokens (some finish))).Fresh tokens := by
  have left : (TokenQueue.ofList tokens (some finish)).Left tokens := ⟨fun _ => id, finish, rfl⟩
  have unmet : ∀ token ∈ (none : Option Token), token ∈ tokens := by simp
  exact ⟨⟨rfl, unmet, fun _ => rfl, left.made_head, .bottom left.advance⟩,
    fun _ => left.isEof_or_mem⟩

end Expansion

/-- **Builtins tell the site of the outermost call.** Where the expansion of a list of tokens ends,
so does the one that keeps track of sites, with the same tokens and in the same context. Each site
is a token of the list that names a macro. Each token that comes out was made at its site: what
builtins made spells the line or the file of the site. So where only builtins make numbers or
strings, each of these spells its site. -/
theorem builtins_tell_callSite {fuel : Nat} {tokens out : List Token} {finish : Location}
    {context next : Context} (ran : expandTokens fuel tokens finish context = .ok out next) :
    ∃ handed, expandSited context.table tokens finish fuel context = .ok handed next ∧
      handed.map Prod.fst = out ∧ ∀ pair ∈ handed,
        (∀ site, pair.2 = some site →
          site ∈ tokens ∧ (context.table.entryFor? site).isSome = true) ∧
        pair.1.Made context.table tokens pair.2 ∧
        (context.table.Withholds tokens pair.1.kind → ∃ site, pair.2 = some site ∧
          (pair.1.kind = .number ∧ pair.1.lexeme = toString site.location.line ∨
            pair.1.kind = .string ∧ pair.1.lexeme = quoteText site.location.file)) := by
  cases fuel with
  | zero => cases ran
  | succ fuel =>
    rw [expandTokens_succ] at ran
    obtain ⟨⟨drained, last⟩, _, drains, result⟩ := bind_ok_iff.mp ran
    cases result
    obtain ⟨sited, fresh⟩ := Expansion.sited_opened context.table tokens finish
    obtain ⟨handed, drains', same, made⟩ := sited.drain fresh (by simp [Expansion.opened]) drains
    refine ⟨handed, drains', same, fun pair member => ?_⟩
    obtain ⟨made, met⟩ := made pair member
    exact ⟨met, made, made.told⟩

/-- A call of `ID` on the third line with the argument `PLACE` on the fourth one, and `__LINE__` on
the fifth one. -/
def spreadCall : List Token :=
  [.onLine 3 .identifier "ID", .onLine 3 .punctuator "(", .onLine 4 .identifier "PLACE",
    .onLine 4 .punctuator ")", .onLine 5 .identifier "__LINE__"]

theorem builtins_tell_callSite_spread :
    let table := (MacroTable.initial.define identityMacro).define
      (plainMacro "PLACE" [plainName "__LINE__", plainName "__FILE__"])
    ∃ out next, expandTokens 9 spreadCall .unknown { table } = .ok out next ∧
      out.map (·.lexeme) = ["3", "\"id.c\"", "5"] ∧
      ∃ handed, expandSited table spreadCall .unknown 9 { table } = .ok handed next ∧
        handed.map Prod.fst = out ∧ ∀ pair ∈ handed, pair.1.kind = .number →
          ∃ site ∈ spreadCall, pair.2 = some site ∧ pair.1.lexeme =
            toString site.location.line := by
  intro table
  obtain ⟨out, next, ran, spelled⟩ : ∃ out next,
      expandTokens 9 spreadCall .unknown { table } = .ok out next ∧
        (out.map (·.lexeme) == ["3", "\"id.c\"", "5"]) = true :=
    Engine.exists_ok_of_check (by decide +kernel)
  obtain ⟨handed, sited, same, made⟩ := builtins_tell_callSite ran
  have withheld : table.Withholds spreadCall .number :=
    ⟨by decide, by decide, by decide, by decide⟩
  refine ⟨out, next, ran, by simpa using spelled, handed, sited, same, fun pair member number => ?_⟩
  obtain ⟨met, _, told⟩ := made pair member
  obtain ⟨site, set, ⟨_, line⟩ | ⟨string, _⟩⟩ := told (number ▸ withheld)
  · exact ⟨site, (met site set).1, set, line⟩
  · simp [number] at string

end Preproc
