import Mathlib.Data.List.Forall2
import Preproc.Proofs.Expansion.Follows
import Preproc.Proofs.Regime.Expansion

/-! # Streams that are alike

Two streams are alike if they are built in the same way from the same tokens and macros. They may
differ in where their ends stand, in the origins of their invocations, and in streams that are known
to stand for each other. Reading streams that are alike gives the same tokens, also with more fuel
on the second side.

This module has the relation, and what reading and playing back does to it.
-/

namespace Preproc

open TokenStream (Mover readStack peekStack readWith peekWith expandWith)
open Engine (Ensures Follows Grants Kinship Meets)

/-- In what streams that are alike may differ. -/
structure Likeness where
  /-- Whether ends may stand at different places. -/
  loose : Prop
  /-- The origins that may stand for each other. -/
  origins : Option Token → Option Token → Prop
  /-- The streams that are known to stand for each other. -/
  supplies : TokenStream → TokenStream → Prop
  /-- The tokens that may name a macro. -/
  names : Token → Prop := fun _ => True

/-- The same token, or two ends if their places may differ. -/
def Likeness.Same (like : Likeness) (token token' : Token) : Prop :=
  token = token' ∨ (like.loose ∧ token.isEof = true ∧ token'.isEof = true)

namespace Likeness.Same

variable {like : Likeness} {token token' : Token}

theorem refl (token : Token) : like.Same token token :=
  .inl rfl

variable (same : like.Same token token')

include same

theorem kind_eq : token'.kind = token.kind := by
  rcases same with equal | ⟨_, ended, ended'⟩
  · rw [equal]
  · simp_all [Token.isEof]

theorem isEof_eq : token'.isEof = token.isEof := by
  simp [Token.isEof, same.kind_eq]

theorem isIdentifier_eq : token'.isIdentifier = token.isIdentifier := by
  simp [Token.isIdentifier, same.kind_eq]

theorem isPunctuator_eq (text : String) : token'.isPunctuator text = token.isPunctuator text := by
  rcases same with equal | ⟨_, ended, ended'⟩
  · rw [equal]
  · simp only [Token.isEof, beq_iff_eq] at ended ended'
    simp only [Token.isPunctuator, ended, ended']
    rfl

theorem eq_of_goesOn (goesOn : token.isEof = false) : token' = token := by
  rcases same with equal | ⟨_, ended, _⟩
  · exact equal.symm
  · rw [goesOn] at ended
    cases ended

end Likeness.Same

/-- Whether the op stands for the place from which the whole expansion began. -/
def Op.readsOrigin : Op → Bool
  | .line _ _ | .file _ _ => true
  | _ => false

/-- The line and the file of an origin. -/
def originPlace (origin : Option Token) : Option (Int × String) :=
  origin.map fun token => (token.location.line, token.location.file)

namespace Playback

/-- Two invocations of one macro with the same arguments, whose origins may stand for each other. -/
structure SameCall (like : Likeness) (playback playback' : Playback TokenStream) : Prop where
  entry : playback'.entry = playback.entry
  nameToken : playback'.nameToken = playback.nameToken
  around : playback'.around = playback.around
  arguments : playback'.arguments = playback.arguments
  origins : like.origins playback.origin playback'.origin
  places : ∀ op ∈ playback.entry.definition.ops, op.readsOrigin = true →
    originPlace playback.origin = originPlace playback'.origin

/-- Two invocations of one macro that have come equally far. How they were called no longer counts
once no op is left to be played. -/
structure Twins (like : Likeness) (playback playback' : Playback TokenStream) : Prop where
  entry : playback'.entry = playback.entry
  nameToken : playback'.nameToken = playback.nameToken
  around : playback'.around = playback.around
  outermost : playback'.outermost = playback.outermost
  closed : playback'.closed = playback.closed
  pending : playback'.pending = playback.pending
  suffix : playback.pending <:+ playback.entry.definition.ops
  call : playback.pending = [] ∨ SameCall like playback playback'
  lookahead : like.Same playback.lookahead playback'.lookahead

end Playback

namespace TokenStream

/-- A stream that is no expansion. -/
def Flat : TokenStream → Prop
  | .expansion _ => False
  | _ => True

/-- A stream that has only good tokens to hand out: all tokens are good, or those of a queue. -/
def Feeds (good : Token → Prop) (stream : TokenStream) : Prop :=
  (∀ token, good token) ∨ ∃ queue, stream = .queue queue ∧ queue.finish.isEof = true ∧
    ∀ token ∈ queue.tokens, good token

end TokenStream

/-- Tokens among which a name does not come to stand alone on its stack while it is looked at: all
tokens, or no newlines. -/
def Tame (good : Token → Prop) : Prop :=
  (∀ token, good token) ∨ ∀ token, good token → token.kind ≠ .newline

/-- A next token that comes from the stream that is expanded is its end or a good one. -/
def Expansion.Named (good : Token → Prop) (expansion : Expansion TokenStream) : Prop :=
  expansion.sources.length = 1 → expansion.lookahead.isEof = true ∨ good expansion.lookahead

/-- Two expansions at the same token, apart from their sources. Where only the first one takes its
origins from the tokens of the stream that it expands, the good tokens have to fit the origin of the
second. -/
structure Expansion.Level (like : Likeness) (good : Token → Prop)
    (expansion expansion' : Expansion TokenStream) : Prop where
  lookahead : like.Same expansion.lookahead expansion'.lookahead
  leftAlone : expansion'.leftAlone = expansion.leftAlone
  named : Tame good → expansion.Named good
  begun : like.origins expansion.origin expansion'.origin ∨
    (expansion.inherited = none ∧ expansion.sources.length = 1)
  inherits : expansion.inherited.isSome = true → expansion'.inherited.isSome = true
  fits : ∀ name, good name → like.names name → expansion.inherited = none →
    like.origins (some name) (if expansion'.inherited.isNone then some name else expansion'.origin)

namespace TokenStream

/-- Streams that are built in the same way. -/
inductive Alike (like : Likeness) : TokenStream → TokenStream → Prop
  | supplied {stream stream' : TokenStream} (supplies : like.supplies stream stream') :
      Alike like stream stream'
  | queue {queue queue' : TokenQueue} (tokens : queue'.tokens = queue.tokens)
      (finish : like.Same queue.finish queue'.finish) (busy : queue'.busy = queue.busy) :
      Alike like (.queue queue) (.queue queue')
  | scanner (scanner : Scanner) : Alike like (.scanner scanner) (.scanner scanner)
  | playback {playback playback' : Playback TokenStream} (twins : playback.Twins like playback')
      (operands : List.Forall₂ (Alike like) playback.operands playback'.operands) :
      Alike like (.playback playback) (.playback playback')
  | expansion {expansion expansion' : Expansion TokenStream} {good : Token → Prop}
      (level : expansion.Level like good expansion') (tame : Tame good)
      (flat : ∀ stream ∈ expansion.sources, stream.Flat)
      (bottom : ∃ tops stream, expansion.sources = tops ++ [stream] ∧ Feeds good stream)
      (sources : List.Forall₂ (Alike like) expansion.sources expansion'.sources) :
      Alike like (.expansion expansion) (.expansion expansion')

end TokenStream

/-- What has to hold of what streams may differ in: an origin that is known stands for a known one,
the macros of a table that tell their origin tell the same place, and streams that stand for each
other keep the same macros busy. -/
structure Likeness.Lawful (like : Likeness) (table : MacroTable) : Prop where
  known : ∀ {origin origin'}, like.origins origin origin' → origin'.isSome = origin.isSome
  fresh : like.origins none none → ∀ token, like.origins (some token) (some token)
  places : ∀ entry ∈ table.entries, ∀ op ∈ entry.definition.ops, op.readsOrigin = true →
    ∀ {origin origin'}, like.origins origin origin' → originPlace origin = originPlace origin'
  busy : ∀ {stream stream'}, like.supplies stream stream' → stream'.busy = stream.busy
  finished : ∀ {stream stream'}, like.supplies stream stream' →
    Expansion.isFinishedOutermost stream' = Expansion.isFinishedOutermost stream
  names : ∀ {token : Token} {entry}, token.isIdentifier = true →
    table.entry? token.lexeme = some entry → like.names token := by exact fun _ _ => trivial

/-- The same token was handed out, and the streams remain alike. -/
def Likeness.Handed (like : Likeness) (found found' : Token × TokenStream) : Prop :=
  like.Same found.1 found'.1 ∧ found.2.Alike like found'.2

/-- The same token was handed out, and the stacks remain alike. -/
def Likeness.HandedAll (like : Likeness) (found found' : Token × List TokenStream) : Prop :=
  like.Same found.1 found'.1 ∧ List.Forall₂ (TokenStream.Alike like) found.2 found'.2

/-- A way to move streams that settles only expansions, and moves queues as queues are to be
moved. -/
structure TokenStream.Direct (move : Mover) : Prop where
  readFlat : ∀ {stream}, stream.Flat → Ensures (readWith move stream) fun found =>
    found.1 = stream.head ∧ found.2.Flat
  readQueue : ∀ {table loud} queue, Grants table loud (readWith move (.queue queue)) fun found =>
    found.2 = .queue queue.advance
  peekFlat : ∀ {table loud stream}, stream.Flat →
    Grants table loud (peekWith move stream) (· = (stream.head, stream))

/-- Two ways to move streams that agree on streams that are alike. -/
structure Likeness.Agree (like : Likeness) (kin : Context → Context → Prop) (move move' : Mover) :
    Prop extends TokenStream.Direct move where
  read : ∀ {stream stream'}, stream.Alike like stream' →
    Follows kin (readWith move stream) (readWith move' stream') like.Handed
  peek : ∀ {stream stream'}, stream.Alike like stream' →
    Follows kin (peekWith move stream) (peekWith move' stream') like.Handed

namespace TokenStream

/-- Stacks with related streams, the bottom ones in a relation of their own. -/
inductive Stacked (tops bottoms : TokenStream → TokenStream → Prop) :
    List TokenStream → List TokenStream → Prop
  | bottom {stream stream' : TokenStream} (related : bottoms stream stream') :
      Stacked tops bottoms [stream] [stream']
  | push {stream stream' : TokenStream} {streams streams' : List TokenStream}
      (related : tops stream stream') (rest : Stacked tops bottoms streams streams') :
      Stacked tops bottoms (stream :: streams) (stream' :: streams')

section Stacks

variable {like : Likeness} {kin : Context → Context → Prop} {move move' : Mover}
  {tops bottoms : TokenStream → TokenStream → Prop} {streams streams' : List TokenStream}

theorem Stacked.ne_nil (stacked : Stacked tops bottoms streams streams') :
    streams ≠ [] ∧ streams' ≠ [] := by
  cases stacked <;> simp

theorem Stacked.length_eq (stacked : Stacked tops bottoms streams streams') :
    streams'.length = streams.length := by
  induction stacked with
  | bottom _ => rfl
  | push _ _ ih => simp [ih]

theorem stacked_of_forall₂ (related : List.Forall₂ tops streams streams')
    (nonempty : streams ≠ []) : Stacked tops tops streams streams' := by
  induction related with
  | nil => exact absurd rfl nonempty
  | @cons stream stream' streams streams' here rest ih =>
    cases rest with
    | nil => exact .bottom here
    | cons next more => exact .push here (ih (List.cons_ne_nil _ _))

theorem Stacked.forall₂ (stacked : Stacked tops bottoms streams streams')
    (inside : ∀ stream stream', bottoms stream stream' → tops stream stream') :
    List.Forall₂ tops streams streams' := by
  induction stacked with
  | bottom related => exact .cons (inside _ _ related) .nil
  | push related _ ih => exact .cons related ih

/-- Reading related stacks gives the same token. Either it comes from above the bottom streams, and
these are untouched, or only they are left. -/
theorem Stacked.read (above : Token → Prop) (bottoms' : Token → TokenStream → TokenStream → Prop)
    (upper : ∀ {stream stream'}, tops stream stream' →
      Follows kin (readWith move stream) (readWith move' stream') fun found found' =>
        like.Same found.1 found'.1 ∧ tops found.2 found'.2 ∧ above found.1)
    (lowest : ∀ {stream stream'}, bottoms stream stream' →
      Follows kin (readWith move stream) (readWith move' stream') fun found found' =>
        like.Same found.1 found'.1 ∧ bottoms' found.1 found.2 found'.2)
    (stacked : Stacked tops bottoms streams streams') :
    Follows kin (readStack move streams) (readStack move' streams') fun found found' =>
      like.Same found.1 found'.1 ∧
        ((1 < found.2.length ∧ found.2.length ≤ streams.length ∧
          Stacked tops bottoms found.2 found'.2 ∧ found.1.isEof = false ∧ above found.1) ∨
        ∃ stream stream', found.2 = [stream] ∧ found'.2 = [stream'] ∧
          bottoms' found.1 stream stream') := by
  induction stacked with
  | bottom related =>
    apply Follows.bind (lowest related)
    intro ⟨token, stream⟩ ⟨token', stream'⟩ ⟨same, related⟩
    exact .pure ⟨same, .inr ⟨stream, stream', rfl, rfl, related⟩⟩
  | @push stream stream' streams streams' related rest ih =>
    unfold TokenStream.readStack
    rw [Stack.read_push _ _ rest.ne_nil.1, Stack.read_push _ _ rest.ne_nil.2]
    apply Follows.bind (upper related)
    intro ⟨token, top⟩ ⟨token', top'⟩ ⟨same, related, above⟩
    rw [same.isEof_eq]
    by_cases ended : token.isEof = true
    · rw [if_pos ended, if_pos ended]
      apply ih.imp
      intro found found' ⟨same, left⟩
      refine ⟨same, left.imp_left ?_⟩
      intro ⟨several, shorter, stacked⟩
      exact ⟨several, Nat.le_succ_of_le shorter, stacked⟩
    · rw [if_neg ended, if_neg ended]
      refine .pure ⟨same, .inl ⟨?_, Nat.le_refl _, .push related rest, ?_, above⟩⟩
      · simpa using List.length_pos_iff.mpr rest.ne_nil.1
      · simpa using ended

theorem Stacked.peek
    (upper : ∀ {stream stream'}, tops stream stream' →
      Follows kin (peekWith move stream) (peekWith move' stream') fun found found' =>
        like.Same found.1 found'.1 ∧ tops found.2 found'.2)
    (lowest : ∀ {stream stream'}, bottoms stream stream' →
      Follows kin (peekWith move stream) (peekWith move' stream') fun found found' =>
        like.Same found.1 found'.1 ∧ bottoms found.2 found'.2)
    (stacked : Stacked tops bottoms streams streams') :
    Follows kin (peekStack move streams) (peekStack move' streams') fun found found' =>
      like.Same found.1 found'.1 ∧ Stacked tops bottoms found.2 found'.2 ∧
        found.2.length = streams.length := by
  induction stacked with
  | bottom related =>
    apply Follows.bind (lowest related)
    intro ⟨token, stream⟩ ⟨token', stream'⟩ ⟨same, related⟩
    exact .pure ⟨same, .bottom related, rfl⟩
  | @push stream stream' streams streams' related rest ih =>
    unfold TokenStream.peekStack
    rw [Stack.peek_push _ _ rest.ne_nil.1, Stack.peek_push _ _ rest.ne_nil.2]
    apply Follows.bind (upper related)
    intro ⟨token, top⟩ ⟨token', top'⟩ ⟨same, related⟩
    rw [same.isEof_eq]
    by_cases ended : token.isEof = true
    · rw [if_pos ended, if_pos ended]
      apply Follows.bind ih
      intro ⟨next, below⟩ ⟨next', below'⟩ ⟨same, stacked, kept⟩
      exact .pure ⟨same, .push related stacked, congrArg (· + 1) kept⟩
    · rw [if_neg ended, if_neg ended]
      exact .pure ⟨same, .push related rest, rfl⟩

end Stacks

end TokenStream

open TokenStream (Alike Stacked stacked_of_forall₂)

namespace Likeness.Agree

variable {like : Likeness} {kin : Context → Context → Prop} {move move' : Mover}
  (agree : like.Agree kin move move') {streams streams' : List TokenStream}
include agree

theorem readStack (alike : List.Forall₂ (Alike like) streams streams') :
    Follows kin (readStack move streams) (readStack move' streams') like.HandedAll := by
  cases alike with
  | nil => exact .throw _
  | cons here rest =>
    have stacked := stacked_of_forall₂ (.cons here rest) (List.cons_ne_nil _ _)
    have upper {stream stream' : TokenStream} (alike : stream.Alike like stream') :
        Follows kin (readWith move stream) (readWith move' stream') fun found found' =>
          like.Same found.1 found'.1 ∧ found.2.Alike like found'.2 ∧ True :=
      (agree.read alike).imp fun _ _ ⟨same, alike⟩ => ⟨same, alike, trivial⟩
    apply (stacked.read (fun _ => True) (fun _ => Alike like) upper agree.read).imp
    rintro ⟨token, found⟩ ⟨token', found'⟩
      ⟨same, ⟨_, _, stacked, _⟩ | ⟨stream, stream', rfl, rfl, alike⟩⟩
    · exact ⟨same, stacked.forall₂ fun _ _ related => related⟩
    · exact ⟨same, .cons alike .nil⟩

theorem peekStack (alike : List.Forall₂ (Alike like) streams streams') :
    Follows kin (peekStack move streams) (peekStack move' streams') like.HandedAll := by
  cases alike with
  | nil => exact .throw _
  | cons here rest =>
    have stacked := stacked_of_forall₂ (.cons here rest) (List.cons_ne_nil _ _)
    apply (stacked.peek agree.peek agree.peek).imp
    intro found found' ⟨same, stacked, _⟩
    exact ⟨same, stacked.forall₂ fun _ _ related => related⟩

end Likeness.Agree

namespace Playback

open Regime (suffix_of_cons)

variable {like : Likeness} {table : MacroTable} {kin : Context → Context → Prop}
  {move move' : Mover} {playback playback' : Playback TokenStream}

theorem follows_require {α : Type} (result : Except Fault α) :
    Follows kin (require result) (require result) fun value value' => value = value' := by
  cases result with
  | ok value => exact .pure rfl
  | error fault => exact .throw _

theorem follows_item {α : Type} (items : List α) (index : Int) :
    Follows kin (item items index) (item items index) fun value value' => value = value' := by
  unfold item
  split
  · exact .pure rfl
  · exact .throw _

theorem follows_argumentSpan (index : Int) :
    Follows kin (playback.argumentSpan index) (playback.argumentSpan index)
      fun span span' => span = span' := by
  unfold argumentSpan
  dsimp only
  split
  · split <;> exact .pure rfl
  · split
    · exact .throw _
    · exact follows_item _ _

theorem SameCall.argumentSpan (call : playback.SameCall like playback') (index : Int) :
    playback'.argumentSpan index = playback.argumentSpan index := by
  unfold Playback.argumentSpan
  rw [call.entry, call.arguments]

theorem SameCall.argumentQueue (call : playback.SameCall like playback') (index : Int)
    (busy : List Macro.Entry) :
    Follows kin (playback.argumentQueue index busy) (playback'.argumentQueue index busy)
      fun queue queue' => queue = queue' := by
  unfold Playback.argumentQueue
  rw [call.argumentSpan, call.arguments, call.nameToken]
  apply Follows.bind (follows_argumentSpan index)
  rintro span _ rfl
  exact follows_require _

theorem SameCall.argumentTokens (call : playback.SameCall like playback') (index : Int) :
    Follows kin (playback.argumentTokens index) (playback'.argumentTokens index)
      fun tokens tokens' => tokens = tokens' := by
  unfold Playback.argumentTokens
  rw [call.argumentSpan, call.arguments]
  apply Follows.bind (follows_argumentSpan index)
  rintro span _ rfl
  exact .pure rfl

theorem follows_bodyToken (same : playback'.entry = playback.entry) (index : Int) :
    Follows kin (playback.bodyToken index) (playback'.bodyToken index)
      fun token token' => token = token' := by
  unfold Playback.bodyToken
  rw [same]
  exact follows_item _ _

theorem alike_queue (queue : TokenQueue) : Alike like (.queue queue) (.queue queue) :=
  .queue rfl (.refl _) rfl

theorem follows_synthesize (kinship : Kinship table kin) (kind : TokenKind) (text : String)
    (place : Token) :
    Follows kin (synthesize kind text place) (synthesize kind text place) (Alike like) :=
  .bind (.allocate kinship text text) fun _ _ _ => .pure (alike_queue _)

theorem SameCall.originToken (call : playback.SameCall like playback')
    (known : playback'.origin.isSome = playback.origin.isSome)
    (places : originPlace playback.origin = originPlace playback'.origin) :
    Follows kin playback.originToken playback'.originToken fun token token' =>
      token.location.line = token'.location.line ∧ token.location.file = token'.location.file := by
  unfold Playback.originToken Macro.Entry.name
  rw [call.entry]
  cases origin : playback.origin with
  | none =>
    have missing' : playback'.origin = none := by simpa [origin] using known
    rw [missing']
    exact .throw _
  | some token =>
    obtain ⟨token', given'⟩ : ∃ token', playback'.origin = some token' := by
      rw [origin] at known
      exact Option.isSome_iff_exists.mp known
    rw [given']
    rw [origin, given'] at places
    exact .pure (by simpa [originPlace] using places)

variable (lawful : like.Lawful table) (kinship : Kinship table kin)
  (agree : like.Agree kin move move')
include lawful agree

theorem follows_expandWith {queue : TokenQueue} {origin origin' : Option Token}
    (origins : like.origins origin origin') :
    Follows kin (expandWith move (.queue queue) origin) (expandWith move' (.queue queue) origin')
      (Alike like) := by
  have leaves : Ensures (readStack move [.queue queue]) fun found =>
      found.2 = [.queue queue.advance] := by
    refine .bind (Meets.ensures fun _ => agree.readQueue queue) ?_
    rintro ⟨token, _⟩ rfl
    exact .pure rfl
  apply Follows.bind ((agree.readStack (.cons (alike_queue queue) .nil)).also leaves)
  rintro ⟨token, _⟩ ⟨token', sources'⟩ ⟨⟨same, alike⟩, rfl⟩
  have level : Expansion.Level like (fun _ => True)
      ⟨origin, origin, token, false, [.queue queue.advance]⟩
      ⟨origin', origin', token', false, sources'⟩ := by
    refine ⟨same, rfl, fun _ _ => .inr trivial, .inl origins, ?_, ?_⟩
    · intro present
      exact (lawful.known origins).trans present
    · intro name _ _ missing
      have missing : origin = none := missing
      have missing' : origin' = none := by simpa [missing] using lawful.known origins
      subst missing missing'
      exact lawful.fresh origins name
  exact .pure (.expansion level (.inl fun _ => trivial) (List.forall_mem_singleton.mpr trivial)
    ⟨[], _, rfl, .inl fun _ => trivial⟩ alike)

include kinship

theorem SameCall.openOp (call : playback.SameCall like playback') {op : Op}
    (member : op ∈ playback.entry.definition.ops) :
    Follows kin (playback.openOp move op) (playback'.openOp move' op) (Alike like) := by
  cases op with
  | span first last =>
    unfold Playback.openOp
    rw [call.entry]
    apply Follows.bind (follows_require _)
    rintro queue _ rfl
    exact .pure (alike_queue queue)
  | unexpanded index parameter =>
    apply Follows.bind (call.argumentQueue parameter [])
    rintro queue _ rfl
    exact .pure (alike_queue queue)
  | expanded index parameter =>
    unfold Playback.openOp
    rw [call.around]
    apply Follows.bind (call.argumentQueue parameter playback.around)
    rintro queue _ rfl
    exact follows_expandWith lawful agree call.origins
  | stringized index parameter =>
    apply Follows.bind (call.argumentTokens parameter)
    rintro tokens _ rfl
    apply Follows.bind (follows_bodyToken call.entry index)
    rintro place _ rfl
    exact follows_synthesize kinship _ _ _
  | paste index second => exact .throw _
  | line first second =>
    unfold Playback.openOp
    rw [call.nameToken]
    apply Follows.bind (call.originToken (lawful.known call.origins) (call.places _ member rfl))
    intro token token' ⟨line, _⟩
    rw [line]
    exact follows_synthesize kinship _ _ _
  | file first second =>
    unfold Playback.openOp
    rw [call.nameToken]
    apply Follows.bind (call.originToken (lawful.known call.origins) (call.places _ member rfl))
    intro token token' ⟨_, file⟩
    rw [file]
    exact follows_synthesize kinship _ _ _

omit lawful agree in
theorem follows_pasteTokens (operands : List Token) (mark : Token) :
    Follows kin (pasteTokens operands mark) (pasteTokens operands mark)
      fun pasted pasted' => pasted = pasted' := by
  unfold pasteTokens
  dsimp only
  generalize String.join (operands.map (·.lexeme)) = text
  split
  · exact .pure rfl
  apply Follows.bind (.allocate kinship text text)
  intro _ _ _
  apply Follows.bind (.rescan kinship text mark.location)
  rintro pasted _ rfl
  have chosen : Follows kin
      (if pasted.isEmpty then pure (operands.map (·.relocated mark.location)) else pure pasted)
      (if pasted.isEmpty then pure (operands.map (·.relocated mark.location)) else pure pasted)
      fun pasted pasted' => pasted = pasted' := by
    split <;> exact .pure rfl
  split
  · exact .bind (.report kinship _ _) fun _ _ _ => chosen
  · exact chosen

variable {operands' : List TokenStream}

omit lawful kinship in
theorem follows_exhausted {token token' : Token} (same : like.Same token token')
    {operands : List TokenStream} (alike : List.Forall₂ (Alike like) operands operands') :
    Follows kin (exhausted move token operands) (exhausted move' token' operands')
      fun found found' => found'.1 = found.1 ∧ List.Forall₂ (Alike like) found.2 found'.2 := by
  apply Follows.bind (agree.peekStack alike)
  intro ⟨next, operands⟩ ⟨next', operands'⟩ ⟨sameNext, alike⟩
  dsimp only at sameNext alike ⊢
  rw [same.isEof_eq, sameNext.isEof_eq]
  split
  · exact .throw _
  · exact .pure ⟨rfl, alike⟩

theorem SameCall.join (call : playback.SameCall like playback') {op : Op}
    (member : op ∈ playback.entry.definition.ops) (left : Option Token) (mark : Token) :
    Follows kin (playback.join move left mark op) (playback'.join move' left mark op)
      (List.Forall₂ (Alike like)) := by
  apply Follows.bind (call.openOp lawful kinship agree member)
  intro operand operand' alike
  apply Follows.bind (agree.readStack (.cons alike .nil))
  intro ⟨right, operands⟩ ⟨right', operands'⟩ ⟨same, alike⟩
  dsimp only at same alike ⊢
  rw [same.isEof_eq]
  by_cases ended : right.isEof = true
  · rw [if_pos ended, if_pos ended]
    cases left with
    | some token =>
      apply Follows.bind (follows_pasteTokens kinship _ mark)
      rintro pasted _ rfl
      exact .pure (.cons (alike_queue _) alike)
    | none =>
      -- Without operands nothing is pasted, so the white space of the ends does not count.
      exact .pure (.cons (alike_queue _) alike)
  · rw [if_neg ended, if_neg ended, same.eq_of_goesOn (by simpa using ended)]
    apply Follows.bind (follows_pasteTokens kinship _ mark)
    rintro pasted _ rfl
    exact .pure (.cons (alike_queue _) alike)

/-- Where two invocations stand after finding the same token, with no other ops left than before. -/
structure FoundAlike (like : Likeness) (ops : List Op) (found found' : Found) : Prop where
  token : like.Same found.token found'.token
  pending : found'.pending = found.pending
  suffix : found.pending <:+ ops
  operands : List.Forall₂ (Alike like) found.operands found'.operands

omit lawful kinship agree in
theorem FoundAlike.cons {ops : List Op} {found found' : Found}
    (alike : FoundAlike like ops found found') (op : Op) :
    FoundAlike like (op :: ops) found found' :=
  { alike with suffix := alike.suffix.trans (List.suffix_cons op ops) }

theorem follows_carry (same : playback'.entry = playback.entry) (token : Token) (own : Bool)
    (pending : List Op) (operands : List TokenStream) {token' : Token}
    (sameToken : like.Same token token') (suffix : pending <:+ playback.entry.definition.ops)
    (call : pending = [] ∨ playback.SameCall like playback')
    (alike : List.Forall₂ (Alike like) operands operands') :
    Follows kin (playback.carry move token own pending operands)
      (playback'.carry move' token' own pending operands') (FoundAlike like pending) := by
  fun_induction Playback.carry move playback token own pending operands
    generalizing token' operands' with
  | case1 own token operands =>
    apply Follows.bind (follows_exhausted agree sameToken alike)
    rintro ⟨done, operands⟩ ⟨done', operands'⟩ ⟨_, alike⟩
    exact .pure ⟨sameToken, rfl, List.suffix_rfl, alike⟩
  | case2 own token index second operands =>
    apply Follows.bind (follows_exhausted agree sameToken alike)
    rintro ⟨done, operands⟩ ⟨_, operands'⟩ ⟨rfl, alike⟩
    dsimp only
    split
    · exact .pure ⟨sameToken, rfl, List.suffix_rfl, alike⟩
    · exact .bind (follows_bodyToken same index) fun _ _ _ => .throw _
  | case3 token own index second op pending operands ihOwn ihOther =>
    have call := call.resolve_left (List.cons_ne_nil _ _)
    have opSuffix := suffix_of_cons suffix
    have member : op ∈ playback.entry.definition.ops := opSuffix.subset (List.mem_cons_self ..)
    apply Follows.bind (follows_exhausted agree sameToken alike)
    rintro ⟨done, operands⟩ ⟨_, operands'⟩ ⟨rfl, alike⟩
    dsimp only
    split
    · exact .pure ⟨sameToken, rfl, List.suffix_rfl, alike⟩
    apply Follows.bind (follows_bodyToken same index)
    rintro mark _ rfl
    have sameLeft : (if own && !token'.isEof then some token' else none) =
        if own && !token.isEof then some token else none := by
      rw [sameToken.isEof_eq]
      cases ended : token.isEof with
      | true => simp
      | false => rw [sameToken.eq_of_goesOn ended]
    rw [sameLeft, sameToken.isEof_eq]
    generalize (if own && !token.isEof then some token else none) = left
    apply Follows.bind (call.join lawful kinship agree member left mark)
    intro streams streams' alike
    split
    · apply Follows.bind (agree.readStack alike)
      rintro ⟨next, operands⟩ ⟨next', operands'⟩ ⟨sameNext, alike⟩
      exact (ihOwn next operands sameNext (suffix_of_cons opSuffix) (.inr call) alike).imp
        fun _ _ found => (found.cons op).cons _
    · exact (ihOther streams sameToken (suffix_of_cons opSuffix) (.inr call) alike).imp
        fun _ _ found => (found.cons op).cons _
  | case4 own token op pending operands notLast notPaste ihOwn ihOther =>
    have call := call.resolve_left (List.cons_ne_nil _ _)
    have member : op ∈ playback.entry.definition.ops := suffix.subset (List.mem_cons_self ..)
    rw [Playback.carry.eq_4 _ _ _ _ _ _ _ notLast notPaste]
    apply Follows.bind (follows_exhausted agree sameToken alike)
    rintro ⟨done, operands⟩ ⟨_, operands'⟩ ⟨rfl, alike⟩
    dsimp only
    split
    · exact .pure ⟨sameToken, rfl, List.suffix_rfl, alike⟩
    apply Follows.bind (call.openOp lawful kinship agree member)
    intro operand operand' alike
    rw [sameToken.isEof_eq]
    split
    · apply Follows.bind (agree.readStack (.cons alike .nil))
      rintro ⟨next, operands⟩ ⟨next', operands'⟩ ⟨sameNext, alike⟩
      exact (ihOwn next operands sameNext (suffix_of_cons suffix) (.inr call) alike).imp
        fun _ _ found => found.cons op
    · exact (ihOther operand sameToken (suffix_of_cons suffix) (.inr call)
        (.cons alike .nil)).imp fun _ _ found => found.cons op

theorem Twins.fetch (twins : playback.Twins like playback')
    (alike : List.Forall₂ (Alike like) playback.operands playback'.operands) :
    Follows kin (playback.fetch move) (playback'.fetch move') fun fetched fetched' =>
      Alike like (.playback fetched) (.playback fetched') := by
  unfold Playback.fetch
  by_cases closed : playback.closed = true
  · rw [if_pos closed, if_pos (twins.closed.trans closed)]
    have lookahead : like.Same playback.finish playback'.finish := by
      unfold Playback.finish
      rw [twins.nameToken]
      exact .refl _
    refine .pure (.playback { twins with lookahead, call := ?_ } alike)
    exact twins.call.imp_right fun call => { call with }
  rw [if_neg closed, if_neg (twins.closed.symm ▸ closed)]
  apply Follows.bind (agree.readStack alike)
  intro ⟨token, operands⟩ ⟨token', operands'⟩ ⟨same, alike⟩
  rw [twins.pending]
  apply Follows.bind (follows_carry lawful kinship agree twins.entry token true playback.pending
    operands same twins.suffix twins.call alike)
  intro found found' ⟨sameToken, samePending, suffix, alike⟩
  refine .pure (.playback { twins with
    pending := samePending
    suffix := suffix.trans twins.suffix
    lookahead := sameToken
    call := ?_ } alike)
  rcases twins.call with empty | call
  · rw [empty] at suffix
    exact .inl (List.suffix_nil.mp suffix)
  · exact .inr { call with }

theorem Twins.advance (twins : playback.Twins like playback')
    (alike : List.Forall₂ (Alike like) playback.operands playback'.operands) :
    Follows kin (playback.advance move) (playback'.advance move') fun advanced advanced' =>
      Alike like (.playback advanced) (.playback advanced') := by
  unfold Playback.advance
  rw [twins.lookahead.isEof_eq]
  split
  · exact .pure (.playback twins alike)
  · exact twins.fetch lawful kinship agree alike

theorem SameCall.prime (call : playback.SameCall like playback') (around : List Macro.Entry)
    (outermost : playback'.outermost = playback.outermost)
    (closed : playback'.closed = playback.closed)
    (lookahead : like.Same playback.lookahead playback'.lookahead)
    (alike : List.Forall₂ (Alike like) playback.operands playback'.operands) :
    Follows kin (playback.prime move around) (playback'.prime move' around) fun primed primed' =>
      Alike like (.playback primed) (.playback primed') := by
  apply Follows.bind (.trace kinship _ _)
  intro _ _ _
  dsimp only
  have call : Playback.SameCall like { playback with around } { playback' with around } :=
    { call with around := rfl }
  have entry : playback'.entry = playback.entry := call.entry
  have sameOps : playback'.entry.definition.ops = playback.entry.definition.ops := by rw [entry]
  rw [sameOps]
  cases ops : playback.entry.definition.ops with
  | nil => exact .throw _
  | cons op pending =>
    have member : op ∈ playback.entry.definition.ops := by simp [ops]
    apply Follows.bind (call.openOp lawful kinship agree member)
    intro operand operand' opened
    refine Twins.fetch lawful kinship agree ?_ (.cons opened alike)
    exact {
      entry
      nameToken := call.nameToken
      around := rfl
      outermost
      closed
      pending := rfl
      suffix := by
        rw [ops]
        exact List.suffix_cons op pending
      call := .inr { call with }
      lookahead }

end Playback

end Preproc
