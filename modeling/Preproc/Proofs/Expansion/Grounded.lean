import Preproc.Proofs.Expansion.Accord
import Preproc.Proofs.Expansion.Steady
import Preproc.Proofs.Session.Spot

/-! # Expansions of a source

The expansion of a scanner reads its source one token after the other, and puts streams above the
scanner as it begins invocations. No token of these streams opens a directive, as long as no body of
a macro does. So a directive is met on the ground: when the next token opens one, it was the last to
be taken from the source and nothing is above the scanner; and nothing after it is taken until it is
handled.

`Ground` fixes the tokens of the source and what is to hold of those that have been taken. Main
statements: `Ground.grants_settle` and `Ground.grants_advance`.
-/

namespace Preproc

open TokenStream (move Mover readStack peekStack readWith peekWith showing Flat)
open Engine (Ensures Grants Steady)
open Regime (lawful_any)

/-- The regime of streams in which no token opens a directive. No scanner is among them. -/
def Regime.undirected : Regime where
  silent := false
  place _ := True
  token token := token.kind ≠ .directive
  entry entry := ∀ token ∈ entry.definition.body, token.kind ≠ .directive
  scanner _ := False
  failure _ := True

theorem Regime.lawful_undirected : undirected.Lawful where
  unknown := trivial
  token_place _ := trivial
  endOfInput _ := by
    change TokenKind.eof ≠ .directive
    decide
  spaced _ kept := kept
  relocated kept _ := kept
  stringized _ _ _ _ := by
    change TokenKind.string ≠ .directive
    decide
  line _ _ _ := by
    change TokenKind.number ≠ .directive
    decide
  file _ _ _ := by
    change TokenKind.string ≠ .directive
    decide
  pasted _ _ _ _ _ _ member := (midline_of_mem_rescan member).1
  body kept := kept
  finish _ := trivial
  playable _ := .inr ⟨trivial, trivial⟩
  ordinary _ _ := trivial
  scanner_head := False.elim
  scanner_advance := keeps_advance _ (fun _ => False.elim) fun _ _ => trivial

/-- A table no body of which opens a directive. -/
def MacroTable.Plain (table : MacroTable) : Prop :=
  ∀ entry ∈ table.entries, Regime.undirected.entry entry

/-- What actions grant with a plain table. -/
abbrev MacroTable.Plain.logic {table : MacroTable} (plain : table.Plain) :
    Regime.undirected.Logic :=
  Regime.undirected.meeting (fun _ _ => True.intro) rfl plain

/-- The tokens that a scanner has to hand out, at their physical places. -/
def Scanner.left (scanner : Scanner) : List Token :=
  scanner.lookahead :: scanner.pending.map (·.token)

/-- The tokens that are left when one more has been handed out; the end is never used up. -/
def Scanner.after (scanner : Scanner) : List Token :=
  if scanner.lookahead.isEof then scanner.left else scanner.pending.map (·.token)

theorem Scanner.grants_advance (table : MacroTable) (scanner : Scanner) :
    Grants table True scanner.advance fun next =>
      next.left = scanner.after ∧ next.strict = scanner.strict := by
  unfold Scanner.advance Scanner.after
  split
  · exact .pure ⟨rfl, rfl⟩
  split
  · exact .throw trivial
  next next pending whole =>
    refine .bind ((Scanner.steady_meet _ _).grants fun _ _ _ _ _ => trivial) fun _ _ => ?_
    exact .pure ⟨by simp [Scanner.left, whole], rfl⟩

theorem TokenStream.readWith_scanner (fuel : Nat) (scanner : Scanner) :
    readWith (move (fuel + 1)) (.scanner scanner) = do
      let next ← scanner.advance
      return (scanner.head, .scanner next) := by
  unfold readWith move TokenStream.moveWith
  simp [TokenStream.head]

/-- Whether the last of some tokens opens a directive. -/
def Marked (tokens : List Token) : Prop :=
  tokens.getLast?.map (·.kind) = some .directive

theorem marked_concat {front : List Token} {token : Token} :
    Marked (front ++ [token]) ↔ token.kind = .directive := by
  simp [Marked]

/-- A source that is read token after token: its tokens, and what holds of those that have been
taken. It goes on to hold as long as no directive is left unhandled. -/
structure Ground where
  tokens : List Token
  taken : List Token → Prop
  goesOn : ∀ {front token}, taken front → ¬ Marked front → taken (front ++ [token])

namespace Ground

/-- A scanner that has handed out some tokens of the source, and streams above it. -/
structure Under (ground : Ground) (uppers : List TokenStream) (scanner : Scanner)
    (front : List Token) : Prop where
  flat : ∀ stream ∈ uppers, stream.Flat
  kept : Regime.undirected.Streams uppers
  lenient : scanner.strict = false
  split : ground.tokens = front ++ scanner.left
  taken : ground.taken front

/-- Whether a directive was the last to be taken, and is not the end of the source. -/
def Stuck (scanner : Scanner) (front : List Token) : Prop :=
  Marked front ∧ scanner.lookahead.isEof = false

/-- A stack from which the next token may be read. -/
def Open (ground : Ground) (streams : List TokenStream) : Prop :=
  ∃ uppers scanner front, streams = uppers ++ [.scanner scanner] ∧
    ground.Under uppers scanner front ∧ ¬ Stuck scanner front

/-- A token has been read from a stack. If it opens a directive or is the end, it came from the
ground, and nothing is above it. -/
structure Read (ground : Ground) (token : Token) (uppers : List TokenStream) (scanner : Scanner)
    (front : List Token) : Prop extends ground.Under uppers scanner front where
  stuck : Stuck scanner front → token.kind = .directive
  directive : token.kind = .directive → uppers = [] ∧ Marked front
  ended : token.isEof = true → uppers = [] ∧ scanner.lookahead.isEof = true

/-- A stack from which a token has been read. -/
def Shows (ground : Ground) (token : Token) (streams : List TokenStream) : Prop :=
  ∃ uppers scanner front, streams = uppers ++ [.scanner scanner] ∧
    ground.Read token uppers scanner front

variable {ground : Ground} {token : Token} {stream : TokenStream}
  {streams uppers : List TokenStream} {scanner : Scanner} {front : List Token}

theorem Shows.goOn (shows : ground.Shows token streams) (plain : token.kind ≠ .directive) :
    ground.Open streams := by
  obtain ⟨uppers, scanner, front, rfl, read⟩ := shows
  exact ⟨uppers, scanner, front, rfl, read.toUnder, fun blocked => plain (read.stuck blocked)⟩

theorem Open.shows (opened : ground.Open streams) (plain : token.kind ≠ .directive)
    (goesOn : token.isEof = false) : ground.Shows token streams := by
  obtain ⟨uppers, scanner, front, rfl, under, free⟩ := opened
  refine ⟨uppers, scanner, front, rfl, { under with stuck := ?_, directive := ?_, ended := ?_ }⟩
  · exact fun blocked => absurd blocked free
  · exact fun opens => absurd opens plain
  · simp [goesOn]

theorem Open.push (opened : ground.Open streams) (kept : Regime.undirected.Stream stream)
    (flat : stream.Flat) : ground.Open (stream :: streams) := by
  obtain ⟨uppers, scanner, front, rfl, under, free⟩ := opened
  exact ⟨stream :: uppers, scanner, front, rfl,
    { under with
      flat := List.forall_mem_cons.mpr ⟨flat, under.flat⟩
      kept := Regime.streams_cons.mpr ⟨kept, under.kept⟩ }, free⟩

theorem Open.tail (opened : ground.Open (stream :: streams)) (more : streams ≠ []) :
    ground.Open streams := by
  obtain ⟨uppers, scanner, front, whole, under, free⟩ := opened
  cases uppers with
  | nil =>
    cases whole
    exact absurd rfl more
  | cons upper uppers =>
    cases whole
    exact ⟨uppers, scanner, front, rfl,
      { under with
        flat := (List.forall_mem_cons.mp under.flat).2
        kept := (Regime.streams_cons.mp under.kept).2 }, free⟩

theorem Open.retireFinished (opened : ground.Open streams) :
    ground.Open (Expansion.retireFinished streams) := by
  cases streams with
  | nil => exact opened
  | cons top below =>
    simp only [Expansion.retireFinished]
    split
    next finished =>
      apply opened.tail
      rintro rfl
      obtain ⟨uppers, scanner, front, whole, _⟩ := opened
      cases uppers with
      | nil =>
        cases whole
        cases finished
      | cons upper uppers => simp at whole
    · exact opened

/-- A way to move streams, as far as stacks over a scanner need it. -/
structure Moving (table : MacroTable) (move : Mover) : Prop extends TokenStream.Direct move where
  plain : table.Plain
  moves : plain.logic.Moves move
  read : ∀ {stream}, stream.Flat → Regime.undirected.Stream stream →
    Grants table True (readWith move stream) fun found =>
      found.1 = stream.head ∧ found.2.Flat ∧ Regime.undirected.Stream found.2
  scan : ∀ scanner, Grants table True (readWith move (.scanner scanner)) fun found =>
    found.1 = scanner.head ∧ ∃ next, found.2 = .scanner next ∧ next.left = scanner.after ∧
      next.strict = scanner.strict

theorem moving_move {table : MacroTable} (plain : table.Plain) (fuel : Nat) :
    Moving table (move fuel) := by
  have lawful := Regime.lawful_undirected
  have moves := lawful.moves plain.logic (fun _ => False.elim) fuel
  have direct := TokenStream.direct_move fuel
  cases fuel with
  | zero => exact ⟨direct, plain, moves, fun _ _ => .throw trivial, fun _ => .throw trivial⟩
  | succ fuel =>
    refine ⟨direct, plain, moves, ?_, ?_⟩
    · intro stream flat kept
      apply ((lawful.readWith moves stream kept).also (direct.readFlat flat)).imp
      rintro found ⟨⟨_, kept⟩, same, flat⟩
      exact ⟨same, flat, kept⟩
    · intro scanner
      rw [TokenStream.readWith_scanner]
      refine .bind (scanner.grants_advance table) ?_
      rintro next moved
      exact .pure ⟨rfl, next, rfl, moved⟩

theorem Under.scanned {next : Scanner} (under : ground.Under [] scanner front)
    (free : ¬ Stuck scanner front) (moved : next.left = scanner.after)
    (same : next.strict = scanner.strict) : ground.Shows scanner.head [.scanner next] := by
  rw [Scanner.after] at moved
  have lenient : next.strict = false := same.trans under.lenient
  have eof : scanner.head.isEof = scanner.lookahead.isEof := by
    rw [Scanner.head_eq, isEof_presume]
  cases ended : scanner.lookahead.isEof with
  | true =>
    -- The end stays where it is, and so does everything that was taken.
    rw [ended, if_pos rfl] at moved
    have plain : scanner.head.kind ≠ .directive := by
      rw [Scanner.kind_head, beq_iff_eq.mp ended]
      decide
    have same : next.lookahead = scanner.lookahead := (List.cons.inj moved).1
    refine ⟨[], next, front, rfl,
      { under with
        lenient, split := moved ▸ under.split, stuck := ?_, directive := ?_, ended := ?_ }⟩
    · intro stuck
      rw [Stuck, same, ended] at stuck
      cases stuck.2
    · exact fun opens => absurd opens plain
    · exact fun _ => ⟨rfl, same ▸ ended⟩
  | false =>
    rw [ended, if_neg Bool.false_ne_true] at moved
    have unmarked : ¬ Marked front := fun marked => free ⟨marked, ended⟩
    refine ⟨[], next, front ++ [scanner.lookahead], rfl,
      { under with
        lenient, split := ?_, taken := ground.goesOn under.taken unmarked
        stuck := ?_, directive := ?_, ended := ?_ }⟩
    · rw [under.split, moved, List.append_assoc]
      rfl
    · intro stuck
      rw [Scanner.kind_head]
      exact marked_concat.mp stuck.1
    · intro opens
      rw [Scanner.kind_head] at opens
      exact ⟨rfl, marked_concat.mpr opens⟩
    · simp [eof, ended]

theorem plain_of_isIdentifier (named : token.isIdentifier = true) : token.kind ≠ .directive := by
  intro opens
  simp [Token.isIdentifier, opens] at named

theorem isEof_of_isIdentifier (named : token.isIdentifier = true) : token.isEof = false := by
  simp only [Token.isIdentifier, beq_iff_eq] at named
  simp [Token.isEof, named]

section Moved

variable {table : MacroTable} {move : Mover} (moving : Moving table move)
include moving

theorem grants_readStack (opened : ground.Open streams) :
    Grants table True (readStack move streams) fun found =>
      found.1 = showing streams ∧ ground.Shows found.1 found.2 := by
  obtain ⟨uppers, scanner, front, rfl, under, free⟩ := opened
  induction uppers with
  | nil =>
    refine .bind (moving.scan scanner) ?_
    rintro ⟨_, _⟩ ⟨rfl, next, rfl, moved, same⟩
    exact .pure ⟨rfl, under.scanned free moved same⟩
  | cons upper uppers ih =>
    obtain ⟨flat, flats⟩ := List.forall_mem_cons.mp under.flat
    obtain ⟨kept, keeps⟩ := Regime.streams_cons.mp under.kept
    have below : ground.Under uppers scanner front := { under with flat := flats, kept := keeps }
    have plain : upper.head.kind ≠ .directive := Regime.lawful_undirected.token_head kept
    have opened : ground.Open (uppers ++ [.scanner scanner]) :=
      ⟨uppers, scanner, front, rfl, below, free⟩
    rw [List.cons_append, readStack, Stack.read_cons, TokenStream.showing_cons]
    refine .bind (moving.read flat kept) ?_
    rintro ⟨_, rest⟩ ⟨rfl, flat, kept⟩
    dsimp only
    split
    · exact ih below
    next goesOn =>
      refine .pure ⟨rfl, ?_⟩
      exact (opened.push kept flat).shows plain (by simpa using goesOn)

omit moving in
theorem Open.flat (opened : ground.Open streams) : ∀ stream ∈ streams, stream.Flat := by
  obtain ⟨uppers, scanner, front, rfl, under, _⟩ := opened
  intro stream member
  rcases List.mem_append.mp member with among | last
  · exact under.flat stream among
  · cases List.mem_singleton.mp last
    trivial

end Moved

structure Holds (ground : Ground) (expansion : Expansion TokenStream) : Prop where
  origin : ∀ token ∈ expansion.origin, token.kind ≠ .directive
  shows : ground.Shows expansion.lookahead expansion.sources

section Expanding

variable {table : MacroTable} {move : Mover} (moving : Moving table move)
  {expansion : Expansion TokenStream}
include moving

/-- The rules for calls over a scanner: their names and arguments open no directive, and so nothing
is stuck while they are read. -/
def calls (ground : Ground) : moving.plain.logic.Calls move where
  Holds := ground.Holds
  Reading entry expansion streams := (Regime.undirected.entry entry ∧
    expansion.lookahead.isIdentifier = true ∧ ground.Holds expansion) ∧ ground.Open streams
  Showing entry expansion token streams := ((Regime.undirected.entry entry ∧
    expansion.lookahead.isIdentifier = true ∧ ground.Holds expansion) ∧ ground.Open streams) ∧
      token = showing streams
  Ready entry expansion streams := (Regime.undirected.entry entry ∧
    expansion.lookahead.isIdentifier = true ∧ ground.Holds expansion) ∧ ground.Open streams
  Good _ token := token.kind ≠ .directive
  outOfFuel := trivial
  present _ := .inr trivial
  ready_present _ := .inr trivial
  start {entry expansion _ _} holds named known _ _ := by
    have plain := plain_of_isIdentifier named
    have rooted : ground.Holds expansion.rooted := by
      unfold Expansion.rooted
      split
      · exact ⟨by simpa using plain, holds.shows⟩
      · exact holds
    have begun : Regime.undirected.entry entry ∧ expansion.rooted.lookahead.isIdentifier = true ∧
        ground.Holds expansion.rooted := ⟨known, by simpa using named, rooted⟩
    exact ⟨⟨begun, holds.shows.goOn plain⟩, begun, (holds.shows.goOn plain).retireFinished⟩
  peek _ _ streams reading := by
    apply (moving.toDirect.peekStack reading.2.flat).imp
    rintro _ rfl
    exact ⟨reading, rfl⟩
  reading := And.left
  good _ plain := plain
  read _ _ token streams _ plain := by
    rintro ⟨⟨begun, opened⟩, rfl⟩
    apply (grants_readStack moving opened).imp
    rintro ⟨_, rest⟩ ⟨rfl, shows⟩
    exact ⟨plain, ⟨begun, shows.goOn plain⟩, begun, shows.goOn plain⟩
  stays reading := ⟨reading.1.2.2.origin, reading.2.shows (plain_of_isIdentifier reading.1.2.1)
    (isEof_of_isIdentifier reading.1.2.1)⟩
  replays := by
    rintro _ _ _ _ tokens ⟨⟨begun, opened⟩, _⟩ _ good
    have queue : Regime.undirected.Stream (.queue (.ofList tokens none)) :=
      .queue good (Regime.lawful_undirected.endOfInput trivial) trivial
    exact ⟨begun.2.2.origin, (opened.push queue trivial).shows (plain_of_isIdentifier begun.2.1)
      (isEof_of_isIdentifier begun.2.1)⟩
  begins entry expansion arguments around streams := by
    rintro ⟨⟨⟨⟨known, _, holds⟩, opened⟩, _⟩, good, _⟩
    have ended : Regime.undirected.token (.endOfInput expansion.lookahead.location) :=
      Regime.lawful_undirected.endOfInput trivial
    refine .bind (Regime.lawful_undirected.prime moving.moves _ around
      ⟨⟨⟨known, trivial, Regime.rooted_of_forall (fun _ => trivial) _, good, trivial⟩, ended⟩,
        Regime.streams_nil⟩)
      fun primed kept => ?_
    refine .bind (grants_readStack moving (opened.push kept trivial)) ?_
    rintro ⟨lookahead, sources⟩ ⟨_, shows⟩
    exact .pure ⟨holds.origin, shows⟩
  skips _ _ streams reading := by
    apply (grants_readStack moving reading.2).imp
    rintro ⟨lookahead, sources⟩ ⟨_, shows⟩
    exact ⟨reading.1.2.2.origin, shows⟩

/-- **Settling stays on the ground.** -/
theorem grants_settle (fuel : Nat) (holds : ground.Holds expansion) :
    Grants table True (expansion.settle move fuel) ground.Holds :=
  (calls moving ground).settle fuel expansion holds

/-- **Taking a token stays on the ground**, unless that token opens a directive. -/
theorem grants_advance (holds : ground.Holds expansion)
    (plain : expansion.lookahead.kind ≠ .directive) :
    Grants table True (expansion.advance move) ground.Holds := by
  unfold Expansion.advance
  split
  · exact .pure holds
  · refine .bind (grants_readStack moving (holds.shows.goOn plain)) ?_
    rintro ⟨lookahead, sources⟩ ⟨_, shows⟩
    exact .pure ⟨holds.origin, shows⟩

end Expanding

def Reads (ground : Ground) (stream : TokenStream) : Prop :=
  ∃ expansion, stream = .expansion expansion ∧ ground.Holds expansion

theorem grants_move {table : MacroTable} (bodies : table.Plain) (fuel : Nat)
    (kind : TokenStream.Move) (reads : ground.Reads stream)
    (plain : kind = .advance → stream.head.kind ≠ .directive) :
    Grants table True (stream.move fuel kind) ground.Reads := by
  obtain ⟨expansion, rfl, holds⟩ := reads
  cases fuel with
  | zero => exact .throw trivial
  | succ fuel =>
    have moving := moving_move bodies fuel
    cases kind with
    | settle =>
      refine .bind (grants_settle moving fuel holds) fun settled holds => ?_
      exact .pure ⟨settled, rfl, holds⟩
    | advance =>
      refine .bind (grants_advance moving holds (plain rfl)) fun advanced holds => ?_
      exact .pure ⟨advanced, rfl, holds⟩

end Ground

end Preproc
