import Preproc.Proofs.Regime.Calls

/-! # Expansion under a regime

Every move of a stream keeps a lawful regime, whatever the stream and the fuel. The proof follows
the recursion of the engine: from a way to move streams that keeps the regime comes one that may
go a step further.

Main statement: `Regime.Sound.moves_move`.
-/

namespace Preproc.Regime

open TokenStream (Mover readStack peekStack readWith peekWith expandWith)

variable {regime : Regime} {logic : regime.Logic} {given : Prop} {move : Mover}
  {streams : List TokenStream} {tokens : List Token}

section Streams

theorem streams_nil : regime.Streams [] := by
  simp [Streams]

theorem streams_cons {stream : TokenStream} :
    regime.Streams (stream :: streams) ↔ regime.Stream stream ∧ regime.Streams streams :=
  List.forall_mem_cons

/-- What a regime keeps of an expansion, apart from its stack. -/
def Expands (regime : Regime) (expansion : Expansion TokenStream) : Prop :=
  (regime.Rooted expansion.inherited ∧ regime.Rooted expansion.origin) ∧
    regime.token expansion.lookahead ∧ regime.Streams expansion.sources

theorem Lawful.stream_expansion (lawful : regime.Lawful) {expansion : Expansion TokenStream} :
    regime.Stream (.expansion expansion) ↔ regime.Expands expansion := by
  constructor
  · intro kept
    cases kept with
    | expansion inherited origin lookahead _ sources =>
      exact ⟨⟨inherited, origin⟩, lookahead, sources⟩
  · exact fun ⟨⟨inherited, origin⟩, lookahead, sources⟩ =>
      .expansion inherited origin lookahead (lawful.anyStack _) sources

def Expanding (regime : Regime) (stream : TokenStream) : Prop :=
  ∃ expansion, stream = .expansion expansion ∧ regime.Expands expansion

theorem Expanding.stream (lawful : regime.Lawful) {stream : TokenStream}
    (kept : regime.Expanding stream) : regime.Stream stream := by
  obtain ⟨expansion, rfl, kept⟩ := kept
  exact lawful.stream_expansion.mpr kept

variable (sound : regime.Sound)

include sound

theorem Sound.token_head {stream : TokenStream}
    (kept : regime.Stream stream) : regime.token stream.head := by
  cases kept with
  | @queue queue tokens finish =>
    cases queued : queue.tokens with
    | nil => simpa [TokenStream.head, TokenQueue.head, queued] using finish
    | cons token rest =>
      simpa [TokenStream.head, TokenQueue.head, queued] using tokens token (by simp [queued])
  | scanner kept => exact sound.scanner_head kept
  | playback call pending lookahead operands => exact lookahead
  | expansion inherited origin lookahead sources => exact lookahead

theorem Sound.stream_ofList {place : Location}
    (kept : ∀ token ∈ tokens, regime.token token) (ends : regime.place place) :
    regime.Stream (.queue (.ofList tokens (some place))) :=
  .queue kept (sound.endOfInput ends) sound.idle

variable (moves : logic.Moves move)

include moves

theorem Sound.peekWith (stream : TokenStream) :
    logic.Keeps (regime.Stream stream) (peekWith move stream)
      fun found => regime.token found.1 ∧ regime.Stream found.2 :=
  logic.bind (moves .settle stream) id fun _ =>
    logic.pure fun ⟨_, kept⟩ => ⟨sound.token_head kept, kept⟩

theorem Sound.readWith (stream : TokenStream) :
    logic.Keeps (regime.Stream stream) (readWith move stream)
      fun found => regime.token found.1 ∧ regime.Stream found.2 :=
  logic.bind (moves .settle stream) id fun settled =>
    logic.bind (moves .advance settled) And.right fun _ =>
      logic.pure fun ⟨⟨_, settled⟩, kept⟩ => ⟨sound.token_head settled, kept⟩

theorem Sound.readStack (streams : List TokenStream) :
    logic.Keeps (regime.Streams streams) (readStack move streams)
      fun found => regime.token found.1 ∧ regime.Streams found.2 := by
  induction streams with
  | nil => exact logic.throw fun _ => sound.ordinary (by simp) (by simp)
  | cons top below ih =>
    rw [TokenStream.readStack, Stack.read_cons]
    refine logic.bind (sound.readWith moves top) (fun kept => (streams_cons.mp kept).1) ?_
    rintro ⟨token, top'⟩
    dsimp only
    split
    · exact ih.imp (fun ⟨kept, _⟩ => (streams_cons.mp kept).2) fun _ _ found => found
    · exact logic.pure fun ⟨kept, token, top⟩ =>
        ⟨token, streams_cons.mpr ⟨top, (streams_cons.mp kept).2⟩⟩

theorem Sound.peekStack (streams : List TokenStream) :
    logic.Keeps (regime.Streams streams) (peekStack move streams)
      fun found => regime.token found.1 ∧ regime.Streams found.2 := by
  induction streams with
  | nil => exact logic.throw fun _ => sound.ordinary (by simp) (by simp)
  | cons top below ih =>
    rw [TokenStream.peekStack, Stack.peek_cons]
    refine logic.bind (sound.peekWith moves top) (fun kept => (streams_cons.mp kept).1) ?_
    rintro ⟨token, top'⟩
    dsimp only
    split
    · refine logic.bind ih (fun ⟨kept, _⟩ => (streams_cons.mp kept).2) ?_
      rintro ⟨token, below'⟩
      exact logic.pure fun ⟨⟨_, _, top⟩, token, below⟩ => ⟨token, streams_cons.mpr ⟨top, below⟩⟩
    · exact logic.pure fun ⟨kept, token, top⟩ =>
        ⟨token, streams_cons.mpr ⟨top, (streams_cons.mp kept).2⟩⟩

theorem Sound.expandWith (base : TokenStream) (origin : Option Token) :
    logic.Keeps (regime.Stream base ∧ regime.Rooted origin)
      (expandWith move base origin) regime.Expanding := by
  refine logic.bind (sound.readStack moves [base])
    (fun kept => streams_cons.mpr ⟨kept.1, streams_nil⟩) ?_
  rintro ⟨lookahead, sources⟩
  exact logic.pure fun ⟨⟨_, origin⟩, lookahead, sources⟩ =>
    ⟨_, rfl, ⟨origin, origin⟩, lookahead, sources⟩

end Streams

section Playback

open Preproc.Playback

/-- An op that playback can open, unless failing to is possible. -/
def Opens (regime : Regime) (entry : Macro.Entry) (op : Op) : Prop :=
  op ∈ entry.definition.ops ∧ ((op.Inside entry.definition.body ∧ op.isPaste = false) ∨
    (regime.failure .outOfRange ∧ regime.failure (.internal .startsAtPaste)))

variable {index : Int}

theorem keeps_item {α : Type} {items : List α} {gives : α → Prop}
    (there : given → (∃ value, Index.get? items index = some value) ∨ regime.failure .outOfRange)
    (kept : ∀ value, Index.get? items index = some value → given → gives value) :
    logic.Keeps given (item items index) gives := by
  unfold item
  split
  next value found => exact logic.pure (kept value found)
  next missing =>
    refine logic.throw fun holds => ?_
    obtain ⟨value, found⟩ | possible := there holds
    · rw [missing] at found
      cases found
    · exact possible

theorem mem_of_get? {α : Type} {items : List α} {value : α}
    (found : Index.get? items index = some value) : value ∈ items := by
  unfold Index.get? at found
  dsimp only at found
  split at found
  · cases found
  · exact List.mem_of_getElem? found

theorem get?_isSome {α : Type} {items : List α} (front : 0 ≤ index)
    (inside : index < items.length) : ∃ value, Index.get? items index = some value := by
  obtain ⟨place, rfl⟩ := Int.eq_ofNat_of_zero_le front
  have short : place < items.length := by omega
  exact ⟨items[place], by simp [short]⟩

variable {playback : Playback TokenStream}

theorem mem_of_mem_slice {α : Type} {items : List α} {first last : Int} {value : α}
    (member : value ∈ Index.slice items first last) : value ∈ items :=
  List.mem_of_mem_take (List.mem_of_mem_drop member)

variable (sound : regime.Sound)

include sound

theorem Sound.argumentSpan (index : Int) :
    logic.Keeps (0 ≤ index ∨ regime.failure .outOfRange) (playback.argumentSpan index)
      fun _ => True := by
  unfold Playback.argumentSpan
  dsimp only
  split
  · split <;> exact logic.pure fun _ => trivial
  · split
    next => exact logic.throw fun _ => sound.ordinary (by simp) (by simp)
    next inside =>
      refine keeps_item (fun front => ?_) fun _ _ _ => trivial
      exact front.imp (fun front => get?_isSome front (by omega)) id

theorem Sound.argumentTokens (index : Int) :
    logic.Keeps (regime.Call playback ∧ (0 ≤ index ∨ regime.failure .outOfRange))
      (playback.argumentTokens index) fun tokens => ∀ token ∈ tokens, regime.token token := by
  refine logic.bind (sound.argumentSpan index) And.right ?_
  rintro ⟨first, last⟩
  exact logic.pure fun ⟨⟨call, _⟩, _⟩ token member => call.arguments token (mem_of_mem_slice member)

theorem Sound.require_slice (tokens : List Token) (first last : Int)
    (place : Location) (busy : List Macro.Entry) :
    logic.Keeps ((∀ token ∈ tokens, regime.token token) ∧ regime.place place ∧ regime.busy busy)
      (require (TokenQueue.slice tokens first (some last) (some place) busy))
      fun queue => regime.Stream (.queue queue) := by
  unfold TokenQueue.slice
  dsimp only
  split
  · refine logic.pure fun ⟨kept, place, busy⟩ =>
      .queue (fun token member => ?_) (sound.endOfInput place) busy
    exact kept token (List.mem_of_mem_take (List.mem_of_mem_drop member))
  · exact logic.throw fun _ => sound.ordinary (by simp) (by simp)

theorem Sound.argumentQueue (index : Int) (busy : List Macro.Entry) :
    logic.Keeps ((regime.Call playback ∧ regime.busy busy) ∧
        (0 ≤ index ∨ regime.failure .outOfRange))
      (playback.argumentQueue index busy) fun queue => regime.Stream (.queue queue) := by
  refine logic.bind (sound.argumentSpan index) And.right ?_
  rintro ⟨first, last⟩
  exact (sound.require_slice _ first last _ busy).imp
    (fun ⟨⟨⟨call, busy⟩, _⟩, _⟩ => ⟨call.arguments, call.name, busy⟩) fun _ _ kept => kept

theorem Sound.bodyToken (index : Int) :
    logic.Keeps (regime.Call playback ∧
        ((∃ mark, Index.get? playback.entry.definition.body index = some mark) ∨
          regime.failure .outOfRange))
      (playback.bodyToken index) regime.token :=
  keeps_item And.right fun token found ⟨call, _⟩ =>
    sound.body call.entry token (mem_of_get? found)

theorem Sound.originToken :
    logic.Keeps (regime.Call playback) playback.originToken regime.origin := by
  unfold Playback.originToken
  split
  next token found =>
    refine logic.pure fun call => ?_
    have origin := call.origin
    rwa [found] at origin
  next => exact logic.throw fun _ => sound.ordinary (by simp) (by simp)

theorem Sound.synthesize (kind : TokenKind) (text : String)
    (place : Token) :
    logic.Keeps (regime.token ⟨kind, text, place.location, place.leadingSpace⟩)
      (synthesize kind text place) regime.Stream := by
  refine logic.bind (logic.allocate text) id fun _ => logic.pure fun ⟨kept, _⟩ => ?_
  have placed := sound.token_place kept
  exact sound.stream_ofList (List.forall_mem_singleton.mpr kept) placed

theorem Sound.openOp (nests : logic.Nests move) (op : Op) :
    logic.Keeps (regime.Call playback ∧ regime.Opens playback.entry op)
      (playback.openOp move op) regime.Stream := by
  cases op with
  | span first last =>
    refine logic.bind (sound.require_slice _ first last _ []) (fun ⟨call, _⟩ => ?_) fun queue => ?_
    · exact ⟨sound.body call.entry, sound.finish call.entry, sound.idle⟩
    · exact logic.pure And.right
  | unexpanded index parameter =>
    refine logic.bind (sound.argumentQueue parameter [])
      (fun ⟨call, opens⟩ => ⟨⟨call, sound.idle⟩, ?_⟩) fun queue => logic.pure And.right
    exact opens.2.imp (fun ⟨inside, _⟩ => inside) And.left
  | expanded index parameter =>
    refine logic.bind (sound.argumentQueue parameter playback.around)
      (fun ⟨call, opens⟩ => ⟨⟨call, sound.around call.chain⟩, ?_⟩) fun queue => ?_
    · exact opens.2.imp (fun ⟨inside, _⟩ => inside) And.left
    · exact (nests _ _).imp (fun ⟨⟨call, _⟩, kept⟩ => ⟨kept, call.origin⟩) fun _ _ kept => kept
  | stringized index parameter =>
    refine logic.bind (sound.argumentTokens parameter) (fun ⟨call, opens⟩ => ⟨call, ?_⟩)
      fun tokens => ?_
    · exact opens.2.imp (fun ⟨inside, _⟩ => inside.2) And.left
    refine logic.bind (sound.bodyToken index) (fun ⟨⟨call, opens⟩, _⟩ => ⟨call, ?_⟩) fun mark => ?_
    · exact opens.2.imp (fun ⟨inside, _⟩ => inside.1) And.left
    exact (sound.synthesize _ _ mark).imp (fun ⟨⟨⟨call, opens⟩, kept⟩, mark⟩ =>
      sound.stringized _ ⟨_, call.entry, opens.1⟩ kept (sound.token_place mark)) fun _ _ kept =>
        kept
  | line first second =>
    refine logic.bind sound.originToken And.left fun origin => ?_
    exact (sound.synthesize _ _ playback.nameToken).imp
      (fun ⟨⟨call, _⟩, origin⟩ => sound.line _ origin call.name) fun _ _ kept => kept
  | file first second =>
    refine logic.bind sound.originToken And.left fun origin => ?_
    exact (sound.synthesize _ _ playback.nameToken).imp
      (fun ⟨⟨call, _⟩, origin⟩ => sound.file _ origin call.name) fun _ _ kept => kept
  | paste index second =>
    refine logic.throw fun ⟨_, opens⟩ => ?_
    obtain ⟨_, operand⟩ | possible := opens.2
    · cases operand
    · exact possible.2

theorem Sound.pasteTokens (index second : Int) (operands : List Token) (mark : Token) :
    logic.Keeps (regime.Has (.paste index second) ∧ (∀ token ∈ operands, regime.token token) ∧
        regime.token mark)
      (pasteTokens operands mark) fun tokens => ∀ token ∈ tokens, regime.token token := by
  unfold Playback.pasteTokens
  dsimp only
  split
  · exact logic.pure fun _ => by simp
  generalize joined : String.join (operands.map (·.lexeme)) = text
  refine logic.bind (logic.allocate _) id fun _ => logic.bind (logic.rescan _ _) id fun pasted => ?_
  have chosen : logic.Keeps
      ((regime.Has (.paste index second) ∧ (∀ token ∈ operands, regime.token token) ∧
          regime.token mark) ∧ pasted = Preproc.rescan text mark.location ∧ (regime.silent = true →
          scanFlaws mark.location.file text = [] ∧ pasted.length = 1))
      (if pasted.isEmpty then pure (operands.map (·.relocated mark.location)) else pure pasted)
      fun tokens => ∀ token ∈ tokens, regime.token token := by
    split
    · refine logic.pure fun ⟨⟨_, kept, mark⟩, _⟩ token member => ?_
      obtain ⟨operand, among, rfl⟩ := List.mem_map.mp member
      exact sound.relocated (kept operand among) (sound.token_place mark)
    · refine logic.pure fun ⟨⟨has, kept, mark⟩, same, silence⟩ => ?_
      subst same
      exact sound.pasted has kept joined.symm (sound.token_place mark) silence
  split
  next =>
    refine logic.bind (logic.report _ (by simp)) id fun _ => chosen.imp ?_ fun _ _ kept => kept
    intro ⟨⟨⟨kept, _⟩, same, _⟩, loud⟩
    exact ⟨kept, same, fun silent => absurd (loud.symm.trans silent) (by decide)⟩
  next single =>
    refine chosen.imp ?_ fun _ _ kept => kept
    intro ⟨⟨kept, _⟩, same, silence⟩
    exact ⟨kept, same, fun silent => ⟨silence silent, by simpa using single⟩⟩

omit sound in
theorem forall_mem_spaceFirst {property : Token → Prop} {leadingSpace : Bool}
    (spaced : ∀ token, property token → property (token.withLeadingSpace leadingSpace))
    (kept : ∀ token ∈ tokens, property token) :
    ∀ token ∈ spaceFirst leadingSpace tokens, property token := by
  cases tokens with
  | nil => exact kept
  | cons first rest =>
    obtain ⟨first, rest⟩ := List.forall_mem_cons.mp kept
    exact List.forall_mem_cons.mpr ⟨spaced _ first, rest⟩

/-- A later op of a macro, unless failing is possible: playback can open it, or it is a paste
between two operands. -/
theorem Sound.opens_of_suffix {entry : Macro.Entry} {op : Op}
    {pending : List Op} (kept : regime.entry entry)
    (suffix : op :: pending <:+ entry.definition.ops) (operand : op.isPaste = false) :
    regime.Opens entry op := by
  have member := suffix.subset (List.mem_cons_self ..)
  refine ⟨member, (sound.playable kept).imp (fun playable => ?_) id⟩
  exact ⟨playable.inside op member, operand⟩

/-- What a regime keeps of where playback stands. -/
def Stands (regime : Regime) (entry : Macro.Entry) (token : Token) (pending : List Op)
    (operands : List TokenStream) : Prop :=
  regime.token token ∧ pending <:+ entry.definition.ops ∧ regime.Streams operands

omit sound in
theorem suffix_of_cons {op : Op} {pending ops : List Op} (suffix : op :: pending <:+ ops) :
    pending <:+ ops :=
  (List.suffix_cons op pending).trans suffix

section Carry

variable (moves : logic.Moves move) (nests : logic.Nests move)

include moves

theorem Sound.exhausted (token : Token) (operands : List TokenStream) :
    logic.Keeps (regime.Streams operands) (exhausted move token operands)
      fun found => regime.Streams found.2 := by
  refine logic.bind (sound.peekStack moves operands) id ?_
  rintro ⟨next, operands'⟩
  dsimp only
  split
  · exact logic.throw fun _ => sound.ordinary (by simp) (by simp)
  · exact logic.pure fun ⟨_, _, operands⟩ => operands

include nests

theorem Sound.join (index second : Int) (left : Option Token) (mark : Token) (op : Op) :
    logic.Keeps ((regime.Call playback ∧ regime.Opens playback.entry op) ∧
        regime.Has (.paste index second) ∧ (∀ token ∈ left, regime.token token) ∧
        regime.token mark)
      (playback.join move left mark op) regime.Streams := by
  refine logic.bind (sound.openOp nests op) And.left fun operand => ?_
  refine logic.bind (sound.readStack moves [operand])
    (fun ⟨_, kept⟩ => streams_cons.mpr ⟨kept, streams_nil⟩) ?_
  rintro ⟨right, operands⟩
  refine logic.bind (sound.pasteTokens index second _ mark)
    (fun ⟨⟨⟨_, has, left, mark⟩, _⟩, right, _⟩ => ⟨has, ?_, mark⟩) fun pasted => ?_
  · intro token member
    split at member
    · exact left token (by simpa using member)
    · obtain among | rfl := by simpa using member
      · exact left token (by simpa using among)
      · exact right
  · refine logic.pure fun ⟨⟨⟨⟨_, _, _, mark⟩, _⟩, _, operands⟩, pasted⟩ => ?_
    refine streams_cons.mpr ⟨sound.stream_ofList ?_ (sound.token_place mark), operands⟩
    exact forall_mem_spaceFirst (fun _ => sound.spaced _) pasted

theorem Sound.carry (token : Token) (own : Bool) (pending : List Op)
    (operands : List TokenStream) :
    logic.Keeps (regime.Call playback ∧ regime.Stands playback.entry token pending operands)
      (playback.carry move token own pending operands)
      fun found => regime.Stands playback.entry found.token found.pending found.operands := by
  fun_induction Playback.carry move playback token own pending operands with
  | case1 own token operands =>
    refine logic.bind (sound.exhausted moves token operands) (fun ⟨_, stands⟩ => stands.2.2) ?_
    rintro ⟨done, operands'⟩
    exact logic.pure fun ⟨⟨_, token, suffix, _⟩, operands⟩ => ⟨token, suffix, operands⟩
  | case2 own token index second operands =>
    refine logic.bind (sound.exhausted moves token operands) (fun ⟨_, stands⟩ => stands.2.2) ?_
    rintro ⟨done, operands'⟩
    dsimp only
    split
    · exact logic.pure fun ⟨⟨_, token, suffix, _⟩, operands⟩ => ⟨token, suffix, operands⟩
    -- The ops of a playable macro do not end in a paste.
    have possible : ∀ {entry : Macro.Entry}, regime.entry entry →
        [Op.paste index second] <:+ entry.definition.ops → regime.failure .outOfRange := by
      intro entry kept suffix
      obtain playable | possible := sound.playable kept
      · cases playable.isPaste_last suffix
      · exact possible.1
    refine logic.bind (sound.bodyToken index) ?_ fun _ => logic.throw ?_
    · exact fun ⟨⟨call, stands⟩, _⟩ => ⟨call, .inr (possible call.entry stands.2.1)⟩
    · exact fun ⟨⟨⟨call, stands⟩, _⟩, _⟩ => possible call.entry stands.2.1
  | case3 token own index second op pending operands ihOwn ihOther =>
    refine logic.bind (sound.exhausted moves token operands) (fun ⟨_, stands⟩ => stands.2.2) ?_
    rintro ⟨done, operands'⟩
    dsimp only
    split
    · exact logic.pure fun ⟨⟨_, token, suffix, _⟩, operands⟩ => ⟨token, suffix, operands⟩
    have inside : ∀ {entry : Macro.Entry}, regime.entry entry →
        Op.paste index second :: op :: pending <:+ entry.definition.ops →
        ((∃ mark, Index.get? entry.definition.body index = some mark) ∨
          regime.failure .outOfRange) ∧ regime.Opens entry op := by
      intro entry kept suffix
      obtain playable | possible := sound.playable kept
      · exact ⟨.inl (playable.inside _ (suffix.subset (List.mem_cons_self ..))),
          sound.opens_of_suffix kept (suffix_of_cons suffix)
            (playable.isPaste_after_paste suffix rfl)⟩
      · exact ⟨.inr possible.1, (suffix_of_cons suffix).subset (List.mem_cons_self ..),
          .inr possible⟩
    refine logic.bind (sound.bodyToken index)
      (fun ⟨⟨call, stands⟩, _⟩ => ⟨call, (inside call.entry stands.2.1).1⟩) fun mark => ?_
    generalize chosen : (if own && !token.isEof then some token else none) = left
    refine logic.bind (sound.join moves nests index second left mark op) ?_ fun operands => ?_
    · intro ⟨⟨⟨call, stands⟩, _⟩, mark⟩
      refine ⟨⟨call, (inside call.entry stands.2.1).2⟩,
        ⟨_, call.entry, stands.2.1.subset (List.mem_cons_self ..)⟩, ?_, mark⟩
      rintro other rfl
      split at chosen <;> cases chosen
      exact stands.1
    split
    · refine logic.bind (sound.readStack moves operands) And.right ?_
      rintro ⟨token', operands⟩
      refine (ihOwn token' operands).imp ?_ fun _ _ stands => stands
      exact fun ⟨⟨⟨⟨⟨call, stands⟩, _⟩, _⟩, _⟩, token, operands⟩ =>
        ⟨call, token, suffix_of_cons (suffix_of_cons stands.2.1), operands⟩
    · refine (ihOther operands).imp ?_ fun _ _ stands => stands
      exact fun ⟨⟨⟨⟨call, stands⟩, _⟩, _⟩, operands⟩ =>
        ⟨call, stands.1, suffix_of_cons (suffix_of_cons stands.2.1), operands⟩
  | case4 own token op pending operands notLast notPaste ihOwn ihOther =>
    have operand := Op.isPaste_eq_false notLast notPaste
    refine logic.bind (sound.exhausted moves token operands) (fun ⟨_, stands⟩ => stands.2.2) ?_
    rintro ⟨done, operands'⟩
    dsimp only
    split
    · exact logic.pure fun ⟨⟨_, token, suffix, _⟩, operands⟩ => ⟨token, suffix, operands⟩
    refine logic.bind (sound.openOp nests op) (fun ⟨⟨call, stands⟩, _⟩ =>
      ⟨call, sound.opens_of_suffix call.entry stands.2.1 operand⟩) fun opened => ?_
    split
    · refine logic.bind (sound.readStack moves [opened])
        (fun ⟨_, opened⟩ => streams_cons.mpr ⟨opened, streams_nil⟩) ?_
      rintro ⟨token', operands⟩
      refine (ihOwn token' operands).imp ?_ fun _ _ stands => stands
      exact fun ⟨⟨⟨⟨call, stands⟩, _⟩, _⟩, token, operands⟩ =>
        ⟨call, token, suffix_of_cons stands.2.1, operands⟩
    · refine (ihOther opened).imp ?_ fun _ _ stands => stands
      exact fun ⟨⟨⟨call, stands⟩, _⟩, opened⟩ =>
        ⟨call, stands.1, suffix_of_cons stands.2.1, streams_cons.mpr ⟨opened, streams_nil⟩⟩

theorem Sound.fetch (playback : Playback TokenStream) :
    logic.Keeps (regime.Stream (.playback playback)) (playback.fetch move)
      fun fetched => regime.Stream (.playback fetched) := by
  unfold Playback.fetch
  split
  · refine logic.pure fun kept => ?_
    cases kept with
    | playback call pending _ operands =>
      exact .playback { call with } pending (sound.endOfInput call.name) operands
  · refine logic.bind (sound.readStack moves playback.operands) ?_ ?_
    · intro kept
      cases kept with
      | playback _ _ _ operands => exact operands
    rintro ⟨token, operands⟩
    refine logic.bind (sound.carry moves nests token true playback.pending operands) ?_
      fun found => ?_
    · intro ⟨kept, token, operands⟩
      cases kept with
      | playback call pending _ _ => exact ⟨call, token, pending, operands⟩
    · refine logic.pure fun ⟨⟨kept, _⟩, token, pending, operands⟩ => ?_
      cases kept with
      | playback call _ _ _ => exact .playback { call with } pending token operands

theorem Sound.prime (playback : Playback TokenStream)
    (around : List Macro.Entry) :
    logic.Keeps ((regime.Call { playback with around } ∧ regime.token playback.lookahead) ∧
        regime.Streams playback.operands)
      (playback.prime move around) fun primed => regime.Stream (.playback primed) := by
  refine logic.bind (logic.trace _) id fun _ => ?_
  dsimp only
  split
  next empty =>
    refine logic.throw fun ⟨⟨⟨call, _⟩, _⟩, _⟩ => ?_
    obtain playable | possible := sound.playable call.entry
    · exact absurd empty playable.ops_ne_nil
    · exact possible.1
  next op pending whole =>
    have suffix : op :: pending <:+ playback.entry.definition.ops := whole ▸ List.suffix_rfl
    refine logic.bind (sound.openOp nests op) ?_ fun operand => ?_
    · intro ⟨⟨⟨call, _⟩, _⟩, _⟩
      refine ⟨call, ?_⟩
      obtain playable | possible := sound.playable call.entry
      · exact sound.opens_of_suffix call.entry suffix (playable.isPaste_first whole)
      · exact ⟨suffix.subset (List.mem_cons_self ..), .inr possible⟩
    · refine (sound.fetch moves nests _).imp ?_ fun _ _ kept => kept
      exact fun ⟨⟨⟨⟨call, lookahead⟩, operands⟩, _⟩, operand⟩ =>
        .playback { call with } (suffix_of_cons suffix) lookahead
          (streams_cons.mpr ⟨operand, operands⟩)

theorem Sound.playback_advance (playback : Playback TokenStream) :
    logic.Keeps (regime.Stream (.playback playback)) (playback.advance move)
      fun advanced => regime.Stream (.playback advanced) := by
  unfold Playback.advance
  split
  · exact logic.pure id
  · exact sound.fetch moves nests playback

end Carry

end Playback

section Expansion

open Preproc.Expansion

variable (lawful : regime.Lawful) (moves : logic.Moves move)

include lawful moves

theorem Lawful.nests : logic.Nests move :=
  fun _ origin => (lawful.expandWith moves _ origin).imp id fun _ _ kept => kept.stream lawful

theorem Lawful.prime (invocation : Playback TokenStream)
    (around : List Macro.Entry) :
    logic.Keeps ((regime.Call invocation ∧ regime.token invocation.lookahead) ∧
        regime.Streams invocation.operands)
      (invocation.prime move around) fun primed => regime.Stream (.playback primed) := by
  refine (lawful.toSound.prime moves (lawful.nests moves) invocation around).imp ?_ fun _ _ => id
  exact fun ⟨⟨call, lookahead⟩, operands⟩ =>
    ⟨⟨{ call with chain := lawful.anyBusy _ }, lookahead⟩, operands⟩

omit lawful moves in
theorem streams_retireFinished (kept : regime.Streams streams) :
    regime.Streams (retireFinished streams) := by
  cases streams with
  | nil => exact kept
  | cons top below =>
    simp only [retireFinished]
    split
    · exact (streams_cons.mp kept).2
    · exact kept

omit moves in
theorem Lawful.stream_replay (kept : ∀ token ∈ tokens, regime.token token)
    (below : regime.Streams streams) : regime.Streams (replay tokens streams) := by
  have place : regime.place (TokenQueue.defaultEnd tokens) := by
    unfold TokenQueue.defaultEnd
    split
    next token last => exact lawful.token_place (kept token (List.mem_of_getLast? last))
    next => exact lawful.unknown
  exact streams_cons.mpr ⟨.queue kept (lawful.endOfInput place) lawful.idle, below⟩

/-- The rules of a lawful regime: it keeps the streams of an expansion, whatever is being called. -/
def Lawful.calls : logic.Calls move where
  Holds := regime.Expands
  Reading entry expansion streams :=
    (regime.entry entry ∧ regime.Expands expansion) ∧ regime.Streams streams
  Showing entry expansion token streams :=
    (regime.entry entry ∧ regime.Expands expansion) ∧ regime.token token ∧ regime.Streams streams
  Ready entry expansion streams :=
    (regime.entry entry ∧ regime.Expands expansion) ∧ regime.Streams streams
  Good _ := regime.token
  outOfFuel := lawful.ordinary (by simp) (by simp)
  present _ := .inr (lawful.ordinary (by simp) (by simp))
  ready_present _ := .inr (lawful.ordinary (by simp) (by simp))
  start {entry expansion _ _} holds _ known _ _ := by
    have rooted : regime.Expands expansion.rooted := by
      unfold rooted
      split
      next fresh =>
        simp only [Bool.and_eq_true, Option.isNone_iff_eq_none] at fresh
        have anyToken := holds.1.1
        rw [fresh.2] at anyToken
        exact ⟨⟨holds.1.1, anyToken _ holds.2.1⟩, holds.2⟩
      · exact holds
    exact ⟨⟨⟨known, rooted⟩, holds.2.2⟩, ⟨known, rooted⟩, streams_retireFinished holds.2.2⟩
  peek _ _ streams := (lawful.peekStack moves streams).imp And.right fun _ given found =>
    ⟨given.1, found⟩
  reading shows := ⟨shows.1, shows.2.2⟩
  good shows _ := shows.2.1
  read _ _ _ streams _ _ := (lawful.readStack moves streams).imp (fun given => given.2.2)
    fun _ given found => ⟨found.1, ⟨given.1, found.2⟩, given.1, found.2⟩
  stays reading := ⟨reading.1.2.1, reading.1.2.2.1, reading.2⟩
  replays shows _ good := ⟨shows.1.2.1, shows.1.2.2.1, lawful.stream_replay good shows.2.2⟩
  begins entry expansion arguments around streams := by
    refine logic.bind (lawful.prime moves _ around) ?_ fun primed => ?_
    · rintro ⟨⟨⟨⟨known, expands⟩, _⟩, _⟩, good, _⟩
      have place := lawful.token_place expands.2.1
      exact ⟨⟨⟨known, place, expands.1.2, good, lawful.anyBusy _⟩, lawful.endOfInput place⟩,
        streams_nil⟩
    refine logic.bind (lawful.readStack moves _)
      (fun given => streams_cons.mpr ⟨given.2, given.1.1.1.2⟩) ?_
    rintro ⟨lookahead, sources⟩
    exact logic.pure fun given => ⟨given.1.1.1.1.1.2.1, given.2⟩
  skips _ _ streams := (lawful.readStack moves streams).imp And.right fun _ given found =>
    ⟨given.1.2.1, found⟩

theorem Lawful.settle (fuel : Nat) (expansion : Expansion TokenStream) :
    logic.Keeps (regime.Expands expansion) (settle move fuel expansion) regime.Expands :=
  (lawful.calls moves).settle fuel expansion

theorem Lawful.expansion_advance (expansion : Expansion TokenStream) :
    logic.Keeps (regime.Expands expansion) (expansion.advance move) regime.Expands := by
  unfold Preproc.Expansion.advance
  split
  · exact logic.pure id
  refine logic.bind (lawful.readStack moves _) (fun kept => kept.2.2) ?_
  rintro ⟨lookahead, sources⟩
  exact logic.pure fun ⟨kept, lookahead, sources⟩ => ⟨kept.1, lookahead, sources⟩

theorem Lawful.moves_moveWith (fuel : Nat)
    (scans : ∀ scanner, logic.Keeps (regime.scanner scanner) scanner.advance regime.scanner) :
    logic.Moves (TokenStream.moveWith move fuel) := by
  intro kind stream
  match kind, stream with
  | .settle, .expansion expansion =>
    refine logic.bind (lawful.settle moves fuel expansion) lawful.stream_expansion.mp fun _ => ?_
    exact logic.pure fun ⟨_, kept⟩ => lawful.stream_expansion.mpr kept
  | .settle, .queue _ | .settle, .scanner _ | .settle, .playback _ => exact logic.pure id
  | .advance, .queue queue =>
    refine logic.pure fun kept => ?_
    cases kept with
    | queue tokens finish busy =>
      exact .queue (fun token member => tokens token (List.mem_of_mem_tail member)) finish busy
  | .advance, .scanner scanner =>
    refine logic.bind (scans scanner) (fun kept => ?_) fun _ => logic.pure fun ⟨_, kept⟩ => ?_
    · cases kept with
      | scanner kept => exact kept
    · exact .scanner kept
  | .advance, .playback playback =>
    exact logic.bind (lawful.playback_advance moves (lawful.nests moves) playback) id fun _ =>
      logic.pure And.right
  | .advance, .expansion expansion =>
    refine logic.bind (lawful.expansion_advance moves expansion) lawful.stream_expansion.mp
      fun _ => ?_
    exact logic.pure fun ⟨_, kept⟩ => lawful.stream_expansion.mpr kept

end Expansion

/-- **Moves keep the regime.** Every judgement that goes with a lawful regime is kept by every move
of every stream, if it is kept by scanners. -/
theorem Lawful.moves (lawful : regime.Lawful) (logic : regime.Logic)
    (scans : ∀ scanner, logic.Keeps (regime.scanner scanner) scanner.advance regime.scanner)
    (fuel : Nat) : logic.Moves (TokenStream.move fuel) := by
  induction fuel with
  | zero => exact fun _ _ => logic.throw fun _ => lawful.ordinary (by simp) (by simp)
  | succ fuel ih => exact lawful.moves_moveWith ih fuel scans

theorem Lawful.moves_move (lawful : regime.Lawful) (fuel : Nat) :
    regime.logic.Moves (TokenStream.move fuel) :=
  lawful.moves regime.logic (fun _ => lawful.scanner_advance) fuel

theorem Lawful.drain (lawful : regime.Lawful) {fuel : Nat}
    (moves : logic.Moves (TokenStream.move fuel)) (bound : Nat) (stream : TokenStream) :
    logic.Keeps (regime.Stream stream) (stream.drain fuel bound)
      fun found => (∀ token ∈ found.1, regime.token token) ∧ regime.Stream found.2 := by
  induction bound generalizing stream with
  | zero => exact logic.throw fun _ => lawful.ordinary (by simp) (by simp)
  | succ bound ih =>
    refine logic.bind (lawful.readWith moves stream) id ?_
    rintro ⟨token, rest⟩
    dsimp only
    split
    · exact logic.pure fun ⟨_, _, rest⟩ => ⟨by simp, rest⟩
    refine logic.bind (ih rest) (fun ⟨_, _, rest⟩ => rest) ?_
    rintro ⟨tokens, rest⟩
    exact logic.pure fun ⟨⟨_, token, _⟩, tokens, rest⟩ =>
      ⟨List.forall_mem_cons.mpr ⟨token, tokens⟩, rest⟩

theorem Lawful.expandTokens (lawful : regime.Lawful) {fuel : Nat}
    (moves : logic.Moves (TokenStream.move fuel)) (rooted : regime.Rooted none)
    (tokens : List Token) (finish : Location) :
    logic.Keeps ((∀ token ∈ tokens, regime.token token) ∧ regime.place finish)
      (expandTokens fuel tokens finish) fun found => ∀ token ∈ found, regime.token token := by
  refine logic.bind (lawful.expandWith moves _ none)
    (fun ⟨kept, finish⟩ => ⟨lawful.stream_ofList kept finish, rooted⟩) fun stream => ?_
  exact logic.bind (lawful.drain moves fuel stream) (fun ⟨_, kept⟩ => kept.stream lawful) fun _ =>
    logic.pure fun ⟨_, found, _⟩ => found

end Preproc.Regime
