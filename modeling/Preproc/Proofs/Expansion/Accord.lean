import Preproc.Proofs.Expansion.Alike

/-! # Moving streams that are alike

Expansions that are alike begin the same invocations and collect the same arguments. So moving
streams that are alike gives streams that are alike, as long as the second side has more fuel than
the first by the gap that its own streams need.

Main statement: `Likeness.agree_move`.
-/

namespace Preproc

open TokenStream (move Mover moveWith readStack peekStack readWith peekWith Alike Feeds Stacked
  stacked_of_forall₂)
open Engine (Ensures Follows Grants Kinship Meets)

namespace TokenStream

def showing : List TokenStream → Token
  | [] => .endOfInput .unknown
  | [bottom] => bottom.head
  | top :: below => if top.head.isEof then showing below else top.head

theorem showing_cons (top : TokenStream) (below : List TokenStream) : showing (top :: below) =
    if top.head.isEof && !below.isEmpty then showing below else top.head := by
  cases below <;> simp [showing]

section Direct

variable {move : Mover} (direct : Direct move) {streams : List TokenStream}
include direct

theorem Direct.peekStack {table : MacroTable} {loud : Prop}
    (flat : ∀ stream ∈ streams, stream.Flat) :
    Grants table loud (peekStack move streams) (· = (showing streams, streams)) := by
  induction streams with
  | nil => exact .throw trivial
  | cons top below ih =>
    obtain ⟨here, flat⟩ := List.forall_mem_cons.mp flat
    rw [TokenStream.peekStack, Stack.peek_cons, showing_cons]
    refine .bind (direct.peekFlat here) ?_
    rintro _ rfl
    dsimp only
    split
    · refine .bind (ih flat) ?_
      rintro _ rfl
      exact .pure rfl
    · exact .pure rfl

theorem Direct.readStack (flat : ∀ stream ∈ streams, stream.Flat) :
    Ensures (readStack move streams) fun found =>
      found.1 = showing streams ∧ ∀ stream ∈ found.2, stream.Flat := by
  induction streams with
  | nil => exact .throw trivial
  | cons top below ih =>
    obtain ⟨here, flat⟩ := List.forall_mem_cons.mp flat
    rw [TokenStream.readStack, Stack.read_cons, showing_cons]
    refine .bind (direct.readFlat here) ?_
    rintro ⟨token, stream⟩ ⟨rfl, here⟩
    dsimp only
    split
    · exact ih flat
    · exact .pure ⟨rfl, List.forall_mem_cons.mpr ⟨here, flat⟩⟩

end Direct

theorem direct_move (fuel : Nat) : Direct (move fuel) := by
  cases fuel with
  | zero =>
    exact ⟨fun _ => .throw trivial, fun _ => .throw trivial, fun _ => .throw trivial⟩
  | succ fuel =>
    constructor
    · intro stream flat
      have moved {α : Type} {action : Engine α} {wrap : α → TokenStream}
          (wraps : ∀ value, (wrap value).Flat) :
          Ensures (do return (stream.head, ← (do return wrap (← action)))) fun found =>
            found.1 = stream.head ∧ found.2.Flat := by
        have wrapped : Ensures (do return wrap (← action)) TokenStream.Flat :=
          .after fun value => .pure (wraps value)
        exact .bind wrapped fun _ flat => .pure ⟨rfl, flat⟩
      cases stream with
      | queue queue => exact .pure ⟨rfl, trivial⟩
      | scanner scanner | playback playback => exact moved fun _ => trivial
      | expansion expansion => exact flat.elim
    · exact fun queue => .pure rfl
    · intro _ _ stream flat
      cases stream with
      | expansion expansion => exact flat.elim
      | _ => exact .pure rfl

end TokenStream

open TokenStream (showing direct_move)

variable {stream' : TokenStream} {fuel fuel' : Nat}

namespace Likeness

/-- Streams in the stacks of two expansions. -/
def Laid (like : Likeness) (stream stream' : TokenStream) : Prop :=
  stream.Alike like stream' ∧ stream.Flat

/-- Streams at the bottom of the stacks of two expansions. -/
def Fed (like : Likeness) (good : Token → Prop) (stream stream' : TokenStream) : Prop :=
  like.Laid stream stream' ∧ stream.Feeds good

/-- Stacks of two expansions. -/
def Sources (like : Likeness) (good : Token → Prop) : List TokenStream → List TokenStream → Prop :=
  Stacked like.Laid (like.Fed good)

variable {like : Likeness} {good : Token → Prop} {table : MacroTable}
  {kin : Context → Context → Prop} {move move' : Mover} {streams streams' : List TokenStream}

theorem sources_iff : like.Sources good streams streams' ↔
    List.Forall₂ (Alike like) streams streams' ∧ (∀ stream ∈ streams, stream.Flat) ∧
      ∃ tops stream, streams = tops ++ [stream] ∧ stream.Feeds good := by
  constructor
  · intro sources
    induction sources with
    | @bottom stream stream' fed =>
      exact ⟨.cons fed.1.1 .nil, List.forall_mem_singleton.mpr fed.1.2, [], stream, rfl, fed.2⟩
    | @push stream stream' streams streams' laid rest ih =>
      obtain ⟨alike, flat, tops, bottom, rfl, feeds⟩ := ih
      exact ⟨.cons laid.1 alike, List.forall_mem_cons.mpr ⟨laid.2, flat⟩, stream :: tops, bottom,
        rfl, feeds⟩
  · intro ⟨alike, flat, tops, bottom, whole, feeds⟩
    subst whole
    induction tops generalizing streams' with
    | nil =>
      cases alike with
      | cons here rest =>
        cases rest
        exact .bottom ⟨⟨here, flat bottom (by simp)⟩, feeds⟩
    | cons top tops ih =>
      obtain ⟨here, flat⟩ := List.forall_mem_cons.mp flat
      cases alike with
      | cons alike rest => exact .push ⟨alike, here⟩ (ih rest flat)

section Reading

variable (agree : like.Agree kin move move')
include agree

theorem Agree.readLaid {stream : TokenStream} (laid : like.Laid stream stream') :
    Follows kin (readWith move stream) (readWith move' stream') fun found found' =>
      like.Same found.1 found'.1 ∧ like.Laid found.2 found'.2 := by
  apply ((agree.read laid.1).also (agree.readFlat laid.2)).imp
  intro found found' ⟨⟨same, alike⟩, _, flat⟩
  exact ⟨same, alike, flat⟩

theorem Agree.readFed {stream : TokenStream} (fed : like.Fed good stream stream') :
    Follows kin (readWith move stream) (readWith move' stream') fun found found' =>
      like.Same found.1 found'.1 ∧ like.Fed good found.2 found'.2 ∧
        (found.1.isEof = true ∨ good found.1) := by
  obtain ⟨laid, all | ⟨queue, rfl, ends, each⟩⟩ := fed
  · apply (agree.readLaid laid).imp
    intro found found' ⟨same, laid⟩
    exact ⟨same, ⟨laid, .inl all⟩, .inr (all _)⟩
  · apply (((agree.readLaid laid).also (agree.readFlat laid.2)).also
      (Meets.ensures fun _ => agree.readQueue queue)).imp
    rintro ⟨_, _⟩ found' ⟨⟨⟨same, laid⟩, rfl, _⟩, rfl⟩
    refine ⟨same, ⟨laid, .inr ⟨queue.advance, rfl, ends, ?_⟩⟩, ?_⟩
    · intro token member
      exact each token (List.mem_of_mem_tail member)
    · simp only [TokenStream.head, TokenQueue.head]
      cases waiting : queue.tokens with
      | nil => exact .inl ends
      | cons first rest => exact .inr (each first (by simp [waiting]))

theorem Sources.read (sources : like.Sources good streams streams') :
    Follows kin (readStack move streams) (readStack move' streams') fun found found' =>
      like.Same found.1 found'.1 ∧ like.Sources good found.2 found'.2 ∧
        found.2.length ≤ streams.length ∧
        (found.2.length = 1 → found.1.isEof = true ∨ good found.1) := by
  have upper {stream stream' : TokenStream} (laid : like.Laid stream stream') :
      Follows kin (readWith move stream) (readWith move' stream') fun found found' =>
        like.Same found.1 found'.1 ∧ like.Laid found.2 found'.2 ∧ True :=
    (agree.readLaid laid).imp fun _ _ ⟨same, laid⟩ => ⟨same, laid, trivial⟩
  apply (Stacked.read (fun _ => True) (fun token stream stream' => like.Fed good stream stream' ∧
    (token.isEof = true ∨ good token)) upper agree.readFed sources).imp
  rintro ⟨token, found⟩ ⟨token', found'⟩
    ⟨same, ⟨several, shorter, rest, _⟩ | ⟨stream, stream', rfl, rfl, fed, named⟩⟩
  · exact ⟨same, rest, shorter, fun one => absurd one (Nat.ne_of_gt several)⟩
  · exact ⟨same, .bottom fed, List.length_pos_iff.mpr sources.ne_nil.1, fun _ => named⟩

theorem Sources.peek (sources : like.Sources good streams streams') :
    Follows kin (peekStack move streams) (peekStack move' streams') fun found found' =>
      like.Same found.1 found'.1 ∧ like.Sources good found.2 found'.2 ∧
        found.2.length = streams.length := by
  have upper {stream stream' : TokenStream} (laid : like.Laid stream stream') :
      Follows kin (peekWith move stream) (peekWith move' stream') fun found found' =>
        like.Same found.1 found'.1 ∧ like.Laid found.2 found'.2 ∧ found.2 = stream := by
    apply ((agree.peek laid.1).also (Meets.ensures fun _ => agree.peekFlat laid.2)).imp
    rintro _ found' ⟨⟨same, alike⟩, rfl⟩
    exact ⟨same, ⟨alike, laid.2⟩, rfl⟩
  apply Stacked.peek _ _ sources
  · intro stream stream' laid
    apply (upper laid).imp
    intro found found' ⟨same, laid, _⟩
    exact ⟨same, laid⟩
  · intro stream stream' fed
    apply (upper fed.1).imp
    rintro ⟨token, _⟩ found' ⟨same, laid, rfl⟩
    exact ⟨same, laid, fed.2⟩

end Reading

theorem Sources.skipNewlines (agree : like.Agree kin move move')
    (sources : like.Sources good streams streams') (more : fuel ≤ fuel') :
    Follows kin (Stack.skipNewlines (readWith move) (peekWith move) fuel streams)
      (Stack.skipNewlines (readWith move') (peekWith move') fuel' streams') fun found found' =>
      like.Sources good found found' ∧
        (Tame good → found.length = 1 → streams.length = 1 ∨ ∀ token, good token) ∧
        (showing found).kind ≠ .newline := by
  induction fuel generalizing fuel' streams streams' with
  | zero => exact .outOfFuel
  | succ fuel ih =>
    obtain ⟨fuel', rfl⟩ := Nat.exists_eq_succ_of_ne_zero (Nat.ne_of_gt (Nat.zero_lt_of_lt more))
    have flat := (sources_iff.mp sources).2.1
    apply Follows.bind ((sources.peek agree).also
      (Meets.ensures fun _ => agree.toDirect.peekStack flat))
    rintro _ ⟨token', found'⟩ ⟨⟨same, sources, _⟩, rfl⟩
    dsimp only at same sources ⊢
    rw [same.kind_eq]
    split
    next newline =>
      apply Follows.bind ((sources.read agree).also (agree.toDirect.readStack flat))
      rintro ⟨token, rest⟩ ⟨token', rest'⟩ ⟨⟨_, sources, shorter, named⟩, rfl, _⟩
      apply (ih sources (Nat.le_of_succ_le_succ more)).imp
      intro last last' ⟨sources, single, noNewline⟩
      refine ⟨sources, fun tame one => ?_, noNewline⟩
      rcases tame with all | calm
      · exact .inr all
      rcases single (.inr calm) one with single | all
      · -- The newline came from the bottom, which has none.
        have newline : (showing streams).kind = .newline := by simpa using newline
        rcases named single with ended | isGood
        · simp [Token.isEof, newline] at ended
        · exact absurd newline (calm _ isGood)
      · exact .inr all
    next noNewline => exact .pure ⟨sources, fun _ => .inl, by simpa using noNewline⟩

theorem Sources.collectArguments (agree : like.Agree kin move move')
    (sources : like.Sources good streams streams') (more : fuel ≤ fuel') (state : Collecting) :
    Follows kin (collectArguments move fuel state streams)
      (collectArguments move' fuel' state streams') fun found found' =>
      found'.1 = found.1 ∧ like.Sources good found.2 found'.2 := by
  induction fuel generalizing fuel' state streams streams' with
  | zero => exact .outOfFuel
  | succ fuel ih =>
    obtain ⟨fuel', rfl⟩ := Nat.exists_eq_succ_of_ne_zero (Nat.ne_of_gt (Nat.zero_lt_of_lt more))
    apply Follows.bind (sources.peek agree)
    intro ⟨token, found⟩ ⟨token', found'⟩ ⟨same, sources, _⟩
    dsimp only at same sources ⊢
    rw [same.isEof_eq, same.kind_eq]
    split
    · exact .pure ⟨rfl, sources⟩
    next goesOn =>
    have equal : token' = token := same.eq_of_goesOn (by simp_all)
    rw [equal]
    apply Follows.bind (sources.read agree)
    intro ⟨_, rest⟩ ⟨_, rest'⟩ ⟨_, sources, _⟩
    split
    · exact ih sources (Nat.le_of_succ_le_succ more) state
    split
    · exact .pure ⟨rfl, sources⟩
    · exact ih sources (Nat.le_of_succ_le_succ more) (state.take token)

end Likeness

section Alike

variable {like : Likeness} {table : MacroTable} (lawful : like.Lawful table)
  {stream stream' : TokenStream}
include lawful

theorem Likeness.Lawful.busy_eq (alike : stream.Alike like stream') :
    stream'.busy = stream.busy := by
  cases alike with
  | supplied supplies => exact lawful.busy supplies
  | queue _ _ busy => exact busy
  | scanner _ => rfl
  | playback twins _ =>
    simp only [TokenStream.busy, Playback.chain]
    rw [twins.entry, twins.around]
  | expansion _ _ _ _ _ => rfl

theorem Likeness.Lawful.isFinishedOutermost_eq (alike : stream.Alike like stream') :
    Expansion.isFinishedOutermost stream' = Expansion.isFinishedOutermost stream := by
  cases alike with
  | supplied supplies => exact lawful.finished supplies
  | queue _ _ _ => rfl
  | scanner _ => rfl
  | playback twins _ =>
    simp only [Expansion.isFinishedOutermost]
    rw [twins.outermost, twins.lookahead.isEof_eq]
  | expansion _ _ _ _ _ => rfl

end Alike

namespace Expansion

variable {like : Likeness} {good : Token → Prop} {table : MacroTable}
  {kin : Context → Context → Prop} {move move' : Mover} {streams streams' : List TokenStream}
  {expansion expansion' : Expansion TokenStream}

theorem follows_busyOnTop (lawful : like.Lawful table)
    (sources : like.Sources good streams streams') :
    Follows kin (busyOnTop streams) (busyOnTop streams') fun busy busy' =>
      busy' = busy ∧ ∃ top below, streams = top :: below ∧ busy = top.busy := by
  cases sources with
  | bottom fed => exact .pure ⟨lawful.busy_eq fed.1.1, _, _, rfl, rfl⟩
  | push laid _ => exact .pure ⟨lawful.busy_eq laid.1, _, _, rfl, rfl⟩

theorem sources_retireFinished (lawful : like.Lawful table)
    (sources : like.Sources good streams streams') :
    (retireFinished streams = [] ∧ retireFinished streams' = []) ∨
      like.Sources good (retireFinished streams) (retireFinished streams') := by
  cases sources with
  | bottom fed =>
    simp only [retireFinished]
    rw [lawful.isFinishedOutermost_eq fed.1.1]
    split
    · exact .inl ⟨rfl, rfl⟩
    · exact .inr (.bottom fed)
  | push laid rest =>
    simp only [retireFinished]
    rw [lawful.isFinishedOutermost_eq laid.1]
    split
    · exact .inr rest
    · exact .inr (.push laid rest)

/-- Two expansions at the same token whose sources are alike. -/
structure Alike (like : Likeness) (good : Token → Prop)
    (expansion expansion' : Expansion TokenStream) : Prop
    extends expansion.Level like good expansion' where
  sources : like.Sources good expansion.sources expansion'.sources

theorem Alike.stream (alike : expansion.Alike like good expansion') (tame : Tame good) :
    TokenStream.Alike like (.expansion expansion) (.expansion expansion') := by
  obtain ⟨sources, flat, bottom⟩ := Likeness.sources_iff.mp alike.sources
  exact .expansion alike.toLevel tame flat bottom sources

/-- The expansions whose next token stays, and would stay again: it names no macro, or one that is
busy, or a function-like one that nothing calls. -/
inductive Rests (table : MacroTable) (expansion : Expansion TokenStream) : Prop
  | passed (passed : (!expansion.lookahead.isIdentifier || expansion.leftAlone) = true)
  | unnamed (unnamed : table.entry? expansion.lookahead.lexeme = none)
  | busy {entry : Macro.Entry} {top : TokenStream} {below : List TokenStream}
      (named : table.entry? expansion.lookahead.lexeme = some entry)
      (stack : expansion.sources = top :: below) (busy : isBusy entry top.busy = true)
  | uncalled {entry : Macro.Entry} (named : table.entry? expansion.lookahead.lexeme = some entry)
      (functionLike : entry.definition.isFunctionLike = true)
      (rooted : expansion.rooted = expansion) (present : expansion.sources ≠ [])
      (flat : ∀ stream ∈ expansion.sources, stream.Flat)
      (noNewline : (showing expansion.sources).kind ≠ .newline)
      (noCall : (showing expansion.sources).isPunctuator "(" = false)

/-- Two attempts that come to the same. -/
inductive AttemptAlike (like : Likeness) (good : Token → Prop) (table : MacroTable) :
    Attempt → Attempt → Prop
  | stays {expansion expansion' : Expansion TokenStream}
      (alike : expansion.Alike like good expansion') (rooted : expansion.rooted.Rests table)
      (rests : (∀ token, good token → token.kind ≠ .newline) → expansion.Rests table) :
      AttemptAlike like good table (.stays expansion) (.stays expansion')
  | again {expansion expansion' : Expansion TokenStream}
      (alike : expansion.Alike like good expansion')
      (named : expansion.Named good) :
      AttemptAlike like good table (.again expansion) (.again expansion')

/-- Two expansions at the same token, where the origin of the first is settled. -/
structure Begun (like : Likeness) (good : Token → Prop)
    (expansion expansion' : Expansion TokenStream) : Prop where
  lookahead : expansion'.lookahead = expansion.lookahead
  leftAlone : expansion'.leftAlone = expansion.leftAlone
  origins : like.origins expansion.origin expansion'.origin
  inherits : expansion.inherited.isSome = true → expansion'.inherited.isSome = true
  fits : ∀ name, good name → like.names name → expansion.inherited = none →
    like.origins (some name) (if expansion'.inherited.isNone then some name else expansion'.origin)

theorem Begun.at (begun : expansion.Begun like good expansion') {lookahead lookahead' : Token}
    (same : like.Same lookahead lookahead') (sources : like.Sources good streams streams')
    (named : Tame good → streams.length = 1 → lookahead.isEof = true ∨ good lookahead) :
    Alike like good { expansion with lookahead, sources := streams }
      { expansion' with lookahead := lookahead', sources := streams' } where
  lookahead := same
  leftAlone := begun.leftAlone
  named := named
  begun := .inl begun.origins
  inherits := begun.inherits
  fits := begun.fits
  sources := sources

variable (lawful : like.Lawful table) (kinship : Kinship table kin)
  (agree : like.Agree kin move move')
include lawful kinship agree

variable {entry : Macro.Entry}

theorem Begun.begin (begun : expansion.Begun like good expansion')
    (member : entry ∈ table.entries) (name : Token) (arguments : Arguments) (outermost : Bool)
    (around : List Macro.Entry) (sources : like.Sources good streams streams') :
    Follows kin
      (expansion.begin move
        { entry, nameToken := name, origin := expansion.origin, arguments, outermost,
          lookahead := .endOfInput name.location } around streams)
      (expansion'.begin move'
        { entry, nameToken := name, origin := expansion'.origin, arguments, outermost,
          lookahead := .endOfInput name.location } around streams') fun next next' =>
        next.Alike like good next' ∧ next.Named good := by
  have call : Playback.SameCall like
      { entry, nameToken := name, origin := expansion.origin, arguments, outermost,
        lookahead := .endOfInput name.location }
      { entry, nameToken := name, origin := expansion'.origin, arguments, outermost,
        lookahead := .endOfInput name.location } := by
    refine ⟨rfl, rfl, rfl, rfl, begun.origins, ?_⟩
    intro op played reads
    exact lawful.places entry member op played reads begun.origins
  apply Follows.bind (call.prime lawful kinship agree around rfl rfl (.refl _) .nil)
  intro invocation invocation' alike
  have pushed : like.Sources good (.playback invocation :: streams)
      (.playback invocation' :: streams') := .push ⟨alike, trivial⟩ sources
  apply Follows.bind (pushed.read agree)
  intro ⟨lookahead, rest⟩ ⟨lookahead', rest'⟩ ⟨same, sources, _, named⟩
  exact .pure ⟨begun.at same sources fun _ => named, named⟩

section Rooted

omit lawful kinship agree

theorem origin_rooted_of_some (inherited : expansion.inherited.isSome = true) :
    expansion.rooted.origin = expansion.origin := by
  have notNone : expansion.inherited.isNone = false := by simpa using inherited
  unfold rooted
  simp [notNone]

theorem origin_rooted_of_none (inherited : expansion.inherited = none) :
    expansion.rooted.origin =
      if expansion.sources.length = 1 then some expansion.lookahead else expansion.origin := by
  unfold rooted
  by_cases single : expansion.sources.length = 1 <;> simp [inherited, single]

theorem rooted_eq_iff : expansion.rooted = expansion ↔
    (expansion.sources.length = 1 → expansion.inherited = none →
      expansion.origin = some expansion.lookahead) := by
  constructor
  · intro same single inherited
    have set := origin_rooted_of_none inherited
    rw [if_pos single] at set
    rw [← set, same]
  · intro set
    unfold rooted
    split
    next outermost =>
      have outermost : expansion.sources.length = 1 ∧ expansion.inherited = none := by
        simpa using outermost
      rw [← set outermost.1 outermost.2]
    next => rfl

theorem rooted_rooted : expansion.rooted.rooted = expansion.rooted := by
  apply rooted_eq_iff.mpr
  intro single inherited
  rw [inherited_rooted] at inherited
  rw [sources_rooted] at single
  rw [origin_rooted_of_none inherited, if_pos single, lookahead_rooted]

end Rooted

theorem Begun.attemptCall (begun : expansion.Begun like good expansion')
    (sources : like.Sources good expansion.sources expansion'.sources)
    (good_of_single : expansion.sources.length = 1 → good expansion.lookahead)
    (rooted : expansion.rooted = expansion)
    (named : table.entry? expansion.lookahead.lexeme = some entry)
    (functionLike : entry.definition.isFunctionLike = true) (outermost : Bool)
    (more : fuel ≤ fuel') : Follows kin (expansion.attemptCall move fuel entry outermost)
      (expansion'.attemptCall move' fuel' entry outermost) (AttemptAlike like good table) := by
  have member : entry ∈ table.entries := List.mem_of_find?_eq_some named
  unfold Expansion.attemptCall
  rw [begun.lookahead]
  apply Follows.bind (sources.skipNewlines agree more)
  rintro skipped skipped' ⟨sources, single, noNewline⟩
  have flat := (Likeness.sources_iff.mp sources).2.1
  apply Follows.bind ((sources.peek agree).also
    (Meets.ensures fun _ => agree.toDirect.peekStack flat))
  rintro _ ⟨next', shown'⟩ ⟨⟨same, sources, _⟩, rfl⟩
  dsimp only at same sources ⊢
  rw [same.isPunctuator_eq]
  by_cases opens : (!(showing skipped).isPunctuator "(") = true
  · rw [if_pos opens, if_pos opens]
    apply Follows.bind (.trace kinship _ _)
    intro _ _ _
    refine .pure (.stays (begun.at (.refl _) sources fun tame one => .inr ?_) ?_ fun calm => ?_)
    · exact (single tame one).elim good_of_single fun all => all _
    · exact .uncalled (by simpa using named) functionLike rooted_rooted
        (by simpa using sources.ne_nil.1)
        (by simpa using flat) (by simpa using noNewline) (by simpa using opens)
    · refine .uncalled named functionLike ?_ sources.ne_nil.1 flat noNewline (by simpa using opens)
      have set := rooted_eq_iff.mp rooted
      apply rooted_eq_iff.mpr
      intro one
      apply set ((single (.inr calm) one).resolve_right fun all => ?_)
      exact calm ⟨.newline, "", .unknown, false⟩ (all _) rfl
  rw [if_neg opens, if_neg opens]
  apply Follows.bind ((sources.read agree).also (agree.toDirect.readStack flat))
  rintro ⟨_, rest⟩ ⟨opening, rest'⟩ ⟨⟨same, sources, _⟩, rfl, _⟩
  obtain rfl : opening = showing skipped := by
    apply same.eq_of_goesOn
    have punctuator : (showing skipped).kind = .punctuator := by
      simp_all [Token.isPunctuator]
    simp [Token.isEof, punctuator]
  apply Follows.bind (sources.collectArguments agree more {})
  rintro ⟨_, rest⟩ ⟨collected, rest'⟩ ⟨rfl, sources⟩
  cases collected with
  | unclosed tokens =>
    apply Follows.bind (.report kinship _ _)
    intro _ _ _
    have replayed : like.Sources good (replay (showing skipped :: tokens) rest)
        (replay (showing skipped :: tokens) rest') :=
      .push ⟨Playback.alike_queue _, trivial⟩ sources
    have alike := begun.at (.refl expansion.lookahead) replayed ?_
    · exact .pure (.stays { alike with leftAlone := rfl } (.passed (by simp))
        fun _ => .passed (by simp))
    · intro _ one
      simp [replay, sources.ne_nil.1] at one
  | closed arguments =>
    dsimp only
    split
    · apply Follows.bind (follows_busyOnTop lawful sources)
      rintro _ around ⟨rfl, _⟩
      apply Follows.bind (begun.begin lawful kinship agree member _ _ outermost _ sources)
      rintro begun begun' ⟨alike, named⟩
      exact .pure (.again alike named)
    · apply Follows.bind (.report kinship _ _)
      intro _ _ _
      apply Follows.bind (sources.read agree)
      rintro ⟨lookahead, rest⟩ ⟨lookahead', rest'⟩ ⟨same, sources, _, named⟩
      exact .pure (.again (begun.at same sources fun _ => named) named)

omit kinship agree lawful in
theorem Alike.rooted (alike : expansion.Alike like good expansion')
    (goesOn : expansion.lookahead.isEof = false)
    (named : expansion.sources.length = 1 → good expansion.lookahead)
    (names : like.names expansion.lookahead) :
    expansion.rooted.Begun like good expansion'.rooted := by
  have same : expansion'.lookahead = expansion.lookahead := alike.lookahead.eq_of_goesOn goesOn
  have length : expansion'.sources.length = expansion.sources.length := alike.sources.length_eq
  refine ⟨by simp [same], by simp [alike.leftAlone], ?_, by simpa using alike.inherits, ?_⟩
  · cases inherited : expansion.inherited with
    | some origin =>
      have known : expansion.inherited.isSome = true := by simp [inherited]
      rw [origin_rooted_of_some known, origin_rooted_of_some (alike.inherits known)]
      exact alike.begun.resolve_right (by simp [inherited])
    | none =>
      rw [origin_rooted_of_none inherited]
      by_cases single : expansion.sources.length = 1
      · rw [if_pos single]
        have fits := alike.fits _ (named single) names inherited
        cases inherited' : expansion'.inherited with
        | some origin =>
          rw [origin_rooted_of_some (by simp [inherited'])]
          simpa [inherited'] using fits
        | none =>
          rw [origin_rooted_of_none inherited', if_pos (length.trans single), same]
          simpa [inherited'] using fits
      · rw [if_neg single]
        have origins := alike.begun.resolve_right (by simp [single])
        cases inherited' : expansion'.inherited with
        | some origin => rwa [origin_rooted_of_some (by simp [inherited'])]
        | none => rwa [origin_rooted_of_none inherited', if_neg (length ▸ single)]
  · intro name isGood names missing
    rw [inherited_rooted] at missing
    have fits := alike.fits name isGood names missing
    cases inherited' : expansion'.inherited with
    | some origin =>
      rw [origin_rooted_of_some (by simp [inherited'])]
      simpa [inherited'] using fits
    | none => simpa [inherited'] using fits

theorem Alike.attempt (alike : expansion.Alike like good expansion')
    (named : expansion.Named good) (more : fuel ≤ fuel') :
    Follows kin (expansion.attempt move fuel) (expansion'.attempt move' fuel')
      (AttemptAlike like good table) := by
  rw [attempt_eq, attempt_eq, alike.lookahead.isIdentifier_eq, alike.leftAlone]
  by_cases passed : (!expansion.lookahead.isIdentifier || expansion.leftAlone) = true
  · rw [if_pos passed, if_pos passed]
    exact .pure (.stays alike (.passed (by simpa using passed)) fun _ => .passed passed)
  rw [if_neg passed, if_neg passed]
  have goesOn : expansion.lookahead.isEof = false := by
    simp_all [Token.isEof, Token.isIdentifier]
  have same : expansion'.lookahead = expansion.lookahead := alike.lookahead.eq_of_goesOn goesOn
  have named : expansion.sources.length = 1 → good expansion.lookahead := fun single =>
    (named single).resolve_left (by simp [goesOn])
  have sources : like.Sources good expansion.rooted.sources expansion'.rooted.sources := by
    simpa using alike.sources
  have looksUp : Follows kin (Engine.entry? expansion.lookahead.lexeme)
      (Engine.entry? expansion'.lookahead.lexeme) fun found found' =>
        found = table.entry? expansion.lookahead.lexeme ∧ found' = found := by
    rw [same]
    apply (Follows.lookup kinship _).imp
    rintro _ _ ⟨rfl, rfl⟩
    exact ⟨rfl, rfl⟩
  apply Follows.bind looksUp
  rintro _ _ ⟨rfl, rfl⟩
  cases found : table.entry? expansion.lookahead.lexeme with
  | none => exact .pure (.stays alike (.unnamed (by simpa using found)) fun _ => .unnamed found)
  | some entry =>
    have member : entry ∈ table.entries := List.mem_of_find?_eq_some found
    have begun := alike.rooted goesOn named (lawful.names (by simp_all) found)
    apply Follows.bind (follows_busyOnTop lawful alike.sources)
    rintro _ _ ⟨rfl, top, below, stack, rfl⟩
    by_cases isBusy : isBusy entry top.busy = true
    · rw [if_pos isBusy, if_pos isBusy]
      exact .pure (.stays alike (.busy (by simpa using found) (by simpa using stack) isBusy)
        fun _ => .busy found stack isBusy)
    rw [if_neg isBusy, if_neg isBusy]
    rw [alike.sources.length_eq]
    by_cases functionLike : entry.definition.isFunctionLike = true
    · rw [if_pos functionLike, if_pos functionLike]
      exact begun.attemptCall lawful kinship agree sources (by simpa using named) rooted_rooted
        (by simpa using found) functionLike _ more
    rw [if_neg functionLike, if_neg functionLike, same]
    rcases sources_retireFinished lawful sources with ⟨empty, empty'⟩ | retired
    · rw [empty, empty']
      exact .throw _
    apply Follows.bind (follows_busyOnTop lawful retired)
    rintro _ around ⟨rfl, _⟩
    apply Follows.bind (begun.begin lawful kinship agree member _ {} _ around retired)
    rintro next next' ⟨alike, named⟩
    exact .pure (.again alike named)

theorem Alike.settle (alike : expansion.Alike like good expansion') (tame : Tame good)
    {fuel fuel' : Nat} (more : fuel ≤ fuel') :
    Follows kin (expansion.settle move fuel) (expansion'.settle move' fuel')
      fun settled settled' => settled.Alike like good settled' ∧ settled.rooted.Rests table ∧
        ((∀ token, good token → token.kind ≠ .newline) → settled.Rests table) := by
  induction fuel generalizing fuel' expansion expansion' with
  | zero => exact .outOfFuel
  | succ fuel ih =>
    obtain ⟨fuel', rfl⟩ := Nat.exists_eq_succ_of_ne_zero (Nat.ne_of_gt (Nat.zero_lt_of_lt more))
    have more := Nat.le_of_succ_le_succ more
    apply Follows.bind (alike.attempt lawful kinship agree (alike.named tame) more)
    intro attempt attempt' same
    cases same with
    | stays alike rooted rests => exact .pure ⟨alike, rooted, rests⟩
    | again alike _ => exact ih alike more

omit lawful kinship in
theorem Alike.advance (alike : expansion.Alike like good expansion') :
    Follows kin (expansion.advance move) (expansion'.advance move') fun next next' =>
      next.Alike like good next' ∧ next.Named good := by
  unfold Expansion.advance
  rw [alike.lookahead.isEof_eq]
  split
  next ended => exact .pure ⟨alike, fun _ => .inl ended⟩
  apply Follows.bind (alike.sources.read agree)
  intro ⟨lookahead, sources⟩ ⟨lookahead', sources'⟩ ⟨same, sources, shorter, named⟩
  refine .pure ⟨{ alike with
    lookahead := same, leftAlone := rfl, sources, named := fun _ => named, begun := ?_ }, named⟩
  apply alike.begun.imp_right
  intro ⟨inherited, single⟩
  exact ⟨inherited, Nat.le_antisymm (single ▸ shorter) (List.length_pos_iff.mpr sources.ne_nil.1)⟩

end Expansion

section Scanners

variable {table : MacroTable} {kin : Context → Context → Prop} (kinship : Kinship table kin)
include kinship

theorem Scanner.follows_meet (strict : Bool) (flaw : Option Flaw) :
    Follows kin (meet strict flaw) (meet strict flaw) fun _ _ => True := by
  unfold meet
  split
  · exact .pure trivial
  · split
    · exact .throw _
    · exact .report kinship _ _

theorem Scanner.follows_advance (scanner : Scanner) :
    Follows kin scanner.advance scanner.advance fun advanced advanced' => advanced' = advanced := by
  unfold Scanner.advance
  split
  · exact .pure rfl
  split
  · exact .throw _
  · exact .bind (follows_meet kinship _ _) fun _ _ _ => .pure rfl

end Scanners

namespace Likeness

variable {like : Likeness} {table : MacroTable} {kin : Context → Context → Prop} {gap : Nat}

/-- Streams that are known to stand for each other go on to do so, if the second ones are moved with
more fuel by a gap. -/
structure Supplied (like : Likeness) (kin : Context → Context → Prop) (gap : Nat) : Prop where
  read : ∀ {stream stream' fuel fuel'}, like.supplies stream stream' → fuel + gap ≤ fuel' →
    Follows kin (stream.read fuel) (stream'.read fuel') fun found found' =>
      like.Same found.1 found'.1 ∧ like.supplies found.2 found'.2
  peek : ∀ {stream stream' fuel fuel'}, like.supplies stream stream' → fuel + gap ≤ fuel' →
    Follows kin (stream.peek fuel) (stream'.peek fuel') fun found found' =>
      like.Same found.1 found'.1 ∧ like.supplies found.2 found'.2

theorem agree_zero (move' : Mover) : like.Agree kin (move 0) move' where
  read _ _ _ _ := .inl rfl
  peek _ _ _ _ := .inl rfl
  toDirect := direct_move 0

theorem same_queueHead {queue queue' : TokenQueue} (tokens : queue'.tokens = queue.tokens)
    (finish : like.Same queue.finish queue'.finish) : like.Same queue.head queue'.head := by
  unfold TokenQueue.head
  rw [tokens]
  cases queue.tokens with
  | nil => exact finish
  | cons first rest => exact .refl first

section Moving

variable {fuel fuel' : Nat} {move' : Mover} (lawful : like.Lawful table)
  (kinship : Kinship table kin) (agree : like.Agree kin (move fuel) move')
include lawful kinship agree

omit lawful kinship in
theorem follows_readSettled {good : Token → Prop} {expansion expansion' : Expansion TokenStream}
    (tame : Tame good) (settles : Follows kin (expansion.settle (move fuel) fuel)
      (expansion'.settle move' fuel') (Expansion.Alike like good)) :
    Follows kin (TokenStream.read (fuel + 1) (.expansion expansion))
      (readWith (moveWith move' fuel') (.expansion expansion')) like.Handed := by
  have settled : Follows kin (move (fuel + 1) .settle (.expansion expansion))
      (moveWith move' fuel' .settle (.expansion expansion')) fun stream stream' =>
      ∃ settled settled', stream = .expansion settled ∧ stream' = .expansion settled' ∧
        settled.Alike like good settled' :=
    settles.image fun settled settled' alike => ⟨settled, settled', rfl, rfl, alike⟩
  apply Follows.bind settled
  rintro _ _ ⟨settled, settled', rfl, rfl, alike⟩
  have advanced : Follows kin (move (fuel + 1) .advance (.expansion settled))
      (moveWith move' fuel' .advance (.expansion settled')) (Alike like) :=
    (alike.advance agree).image fun _ _ alike => alike.1.stream tame
  exact advanced.image fun _ _ rest => ⟨alike.lookahead, rest⟩

theorem follows_peek {stream : TokenStream} (alike : stream.Alike like stream')
    (known : like.supplies stream stream' →
      Follows kin (stream.peek (fuel + 1)) (peekWith (moveWith move' fuel') stream') like.Handed)
    (more : fuel ≤ fuel') :
    Follows kin (stream.peek (fuel + 1)) (peekWith (moveWith move' fuel') stream') like.Handed := by
  cases alike with
  | supplied supplies => exact known supplies
  | queue tokens finish busy =>
    exact .pure ⟨same_queueHead tokens finish, .queue tokens finish busy⟩
  | scanner scanner => exact .pure ⟨.refl scanner.head, .scanner scanner⟩
  | playback twins operands => exact .pure ⟨twins.lookahead, .playback twins operands⟩
  | @expansion expansion expansion' good level tame flat bottom sources =>
    have alike : expansion.Alike like good expansion' :=
      { level with sources := sources_iff.mpr ⟨sources, flat, bottom⟩ }
    have settled : Follows kin (move (fuel + 1) .settle (.expansion expansion))
        (moveWith move' fuel' .settle (.expansion expansion')) fun stream stream' =>
        like.Same stream.head stream'.head ∧ stream.Alike like stream' :=
      (alike.settle lawful kinship agree tame more).image fun _ _ ⟨alike, _⟩ =>
        ⟨alike.lookahead, alike.stream tame⟩
    exact settled.image fun _ _ handed => handed

theorem follows_read {stream : TokenStream} (alike : stream.Alike like stream')
    (known : like.supplies stream stream' →
      Follows kin (stream.read (fuel + 1)) (readWith (moveWith move' fuel') stream') like.Handed)
    (more : fuel ≤ fuel') :
    Follows kin (stream.read (fuel + 1)) (readWith (moveWith move' fuel') stream') like.Handed := by
  -- Once a stream is settled, its token is known and it is advanced.
  have taken {action action' : Engine TokenStream} {token token' : Token}
      (same : like.Same token token') (advances : Follows kin action action' (Alike like)) :
      Follows kin (do return (token, ← action)) (do return (token', ← action')) like.Handed :=
    advances.image fun _ _ alike => ⟨same, alike⟩
  cases alike with
  | supplied supplies => exact known supplies
  | queue tokens finish busy =>
    exact .pure ⟨same_queueHead tokens finish, .queue (congrArg List.tail tokens) finish busy⟩
  | scanner scanner =>
    refine taken (.refl scanner.head) ((scanner.follows_advance kinship).image ?_)
    rintro _ advanced rfl
    exact .scanner advanced
  | playback twins operands =>
    refine taken twins.lookahead ((twins.advance lawful kinship agree operands).image ?_)
    exact fun _ _ alike => alike
  | @expansion expansion expansion' good level tame flat bottom sources =>
    have alike : expansion.Alike like good expansion' :=
      { level with sources := sources_iff.mpr ⟨sources, flat, bottom⟩ }
    apply follows_readSettled agree tame
    exact (alike.settle lawful kinship agree tame more).imp fun _ _ => And.left

end Moving

/-- **Streams that are alike move alike.** -/
theorem agree_move (lawful : like.Lawful table) (kinship : Kinship table kin)
    (supplied : like.Supplied kin gap) (more : fuel + gap ≤ fuel') :
    like.Agree kin (move fuel) (move fuel') := by
  induction fuel generalizing fuel' with
  | zero => exact agree_zero _
  | succ fuel ih =>
    have positive : fuel' ≠ 0 := by omega
    obtain ⟨fuel', rfl⟩ := Nat.exists_eq_succ_of_ne_zero positive
    have agree := ih (by omega : fuel + gap ≤ fuel')
    have bounds : fuel ≤ fuel' := by omega
    have handed {found found' : Token × TokenStream} (supplies : like.Same found.1 found'.1 ∧
        like.supplies found.2 found'.2) : like.Handed found found' :=
      ⟨supplies.1, .supplied supplies.2⟩
    refine ⟨direct_move (fuel + 1), ?_, ?_⟩
    · intro stream stream' alike
      apply follows_read lawful kinship agree alike _ bounds
      exact fun supplies => (supplied.read supplies more).imp fun _ _ => handed
    · intro stream stream' alike
      apply follows_peek lawful kinship agree alike _ bounds
      exact fun supplies => (supplied.peek supplies more).imp fun _ _ => handed

theorem follows_drain_succ {bound bound' : Nat} {stream : TokenStream}
    (reads : Follows kin (stream.read fuel) (stream'.read fuel') like.Handed)
    (rest : ∀ {rest rest' : TokenStream}, rest.Alike like rest' →
      Follows kin (rest.drain fuel bound) (rest'.drain fuel' bound')
        fun drained drained' => drained'.1 = drained.1) :
    Follows kin (stream.drain fuel (bound + 1)) (stream'.drain fuel' (bound' + 1))
      fun drained drained' => drained'.1 = drained.1 := by
  apply Follows.bind reads
  intro ⟨token, stream⟩ ⟨token', stream'⟩ ⟨same, alike⟩
  dsimp only at same alike ⊢
  rw [same.isEof_eq]
  by_cases ended : token.isEof = true
  · rw [if_pos ended, if_pos ended]
    exact .pure rfl
  · rw [if_neg ended, if_neg ended, same.eq_of_goesOn (by simpa using ended)]
    apply Follows.bind (rest alike)
    rintro ⟨_, last⟩ ⟨tokens, last'⟩ rfl
    exact .pure rfl

theorem follows_drain (lawful : like.Lawful table) (kinship : Kinship table kin)
    (supplied : like.Supplied kin gap) {bound bound' : Nat}
    (moreFuel : fuel + gap ≤ fuel') (more : bound ≤ bound') {stream : TokenStream}
    (alike : stream.Alike like stream') :
    Follows kin (stream.drain fuel bound) (stream'.drain fuel' bound')
      fun drained drained' => drained'.1 = drained.1 := by
  have agree := agree_move lawful kinship supplied moreFuel
  induction bound generalizing bound' stream stream' with
  | zero => exact .outOfFuel
  | succ bound ih =>
    obtain ⟨bound', rfl⟩ := Nat.exists_eq_succ_of_ne_zero (Nat.ne_of_gt (Nat.zero_lt_of_lt more))
    apply follows_drain_succ (agree.read alike)
    exact fun alike => ih (Nat.le_of_succ_le_succ more) alike

end Likeness

end Preproc
