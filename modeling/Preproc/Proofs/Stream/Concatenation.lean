import Mathlib.Data.List.Perm.Subperm
import Preproc.Proofs.Expansion.Delivery
import Preproc.Stream.Board

/-! # Stacks of queues as one list

The tokens of a stack of queues are those of its queues from the top down, and after them the end of
the bottom queue. Exhausted queues stay on the stack until a read passes them; that can be seen only
in which queue is on top.

Main statement: `requests_answer_concatenation`.
-/

namespace Preproc

/-- Tokens come from the queue and its end does not. -/
structure TokenQueue.Plain (queue : TokenQueue) : Prop where
  tokens : ∀ token ∈ queue.tokens, token.isEof = false
  finish : queue.finish.isEof = true

namespace TokenQueue.Plain

variable {queue : TokenQueue}

theorem isEof_head (plain : queue.Plain) : queue.head.isEof = queue.tokens.isEmpty := by
  unfold head
  cases tokens : queue.tokens with
  | nil => exact plain.finish
  | cons token rest => exact plain.tokens token (by rw [tokens]; exact List.mem_cons_self)

theorem advance (plain : queue.Plain) : queue.advance.Plain where
  tokens token member := plain.tokens token (List.mem_of_mem_tail member)
  finish := plain.finish

end TokenQueue.Plain

theorem Stack.next_push {α σ : Type} {one : α → EStateM Failure σ (Token × α)} {top : α}
    {below : List α} (nonempty : below ≠ []) : next one (top :: below) = do
      let found ← one top
      if found.1.isEof then do
        let under ← next one below
        return (found.2 :: under.1, under.2)
      else return ([], found.2 :: below) := by
  cases below with
  | nil => exact absurd rfl nonempty
  | cons second below => rfl

theorem Stack.skipNewlines_succ {α σ : Type} {one look : α → EStateM Failure σ (Token × α)}
    {fuel : Nat} {stack : List α} : skipNewlines one look (fuel + 1) stack = do
      let found ← peek look stack
      if found.1.kind == .newline then do
        let taken ← read one found.2
        skipNewlines one look fuel taken.2
      else return found.2 := rfl

namespace Board

/-- What is asked of a stack. -/
inductive Request where
  | read
  | peek
  | next
  | skipNewlines
  | top

/-- What a stack answers. -/
inductive Answer where
  | token (token : Token)
  | slot (slot : Nat)
  | done
  deriving DecidableEq

def ask (fuel : Nat) : Request → BoardM Answer
  | .read => return .token (← readStack fuel)
  | .peek => return .token (← peekStack fuel)
  | .next => return .slot (← nextSlot fuel)
  | .skipNewlines => do
    skipNewlines fuel
    return .done
  | .top => return .slot (← topSlot)

/-- Tokens in one list, each with the slot that it comes from, the slot of the last token that was
taken, and the slot and the token in which all ends. -/
structure Concatenation where
  rest : List (Token × Nat)
  top : Nat
  bottom : Nat
  finish : Token

namespace Concatenation

/-- What comes next, and from where. -/
def next (whole : Concatenation) : Token × Nat :=
  whole.rest.headD (whole.finish, whole.bottom)

/-- The list without what comes next. -/
def advance (whole : Concatenation) : Concatenation :=
  { whole with rest := whole.rest.tail, top := whole.next.2 }

def isNewline (entry : Token × Nat) : Bool :=
  entry.1.kind == .newline

/-- What the list answers, and what is left of it. -/
def answer (whole : Concatenation) : Request → Answer × Concatenation
  | .read => (.token whole.next.1, whole.advance)
  | .peek => (.token whole.next.1, whole)
  | .next => (.slot whole.next.2, whole)
  | .skipNewlines =>
    let skipped := whole.rest.takeWhile isNewline
    (.done,
      { whole with
        rest := whole.rest.dropWhile isNewline
        top := (skipped.getLast?.map (·.2)).getD whole.top })
  | .top => (.slot whole.top, whole)

/-- The answers to requests, one after another. -/
def answers (whole : Concatenation) : List Request → List Answer
  | [] => []
  | request :: requests => (whole.answer request).1 :: (whole.answer request).2.answers requests

variable {whole : Concatenation}

theorem skipNewlines_of_newline (ends : whole.finish.isEof = true)
    (newline : whole.next.1.kind = .newline) :
    whole.advance.rest.length < whole.rest.length ∧
      (whole.answer .skipNewlines).2 = (whole.advance.answer .skipNewlines).2 := by
  obtain ⟨rest, top, bottom, finish⟩ := whole
  cases rest with
  | nil =>
    have ends : finish.kind = .eof := by simpa [Token.isEof] using ends
    exact absurd (ends.symm.trans newline) (by decide)
  | cons entry rest =>
    have newline : isNewline entry = true := by simpa [isNewline, next] using newline
    exact ⟨by simp [advance], by simp [answer, advance, newline, next, List.getLast?_cons]⟩

theorem skipNewlines_of_other (other : whole.next.1.kind ≠ .newline) :
    (whole.answer .skipNewlines).2 = whole := by
  obtain ⟨rest, top, bottom, finish⟩ := whole
  cases rest with
  | nil => rfl
  | cons entry rest =>
    have other : isNewline entry = false := by simpa [isNewline, next] using other
    simp [answer, other]

end Concatenation

/-- A queue in a slot. -/
abbrev Placed := Nat × TokenQueue

/-- The tokens of queues, in their order. -/
def tagged (pile : List Placed) : List (Token × Nat) :=
  pile.flatMap fun placed => placed.2.tokens.map (·, placed.1)

/-- The list that queues above a bottom one make up. -/
def concatenation (uppers : List Placed) (bottom : Placed) : Concatenation where
  rest := tagged (uppers ++ [bottom])
  top := (uppers.headD bottom).1
  bottom := bottom.1
  finish := bottom.2.finish

/-- The links of a board lead through queues. -/
def Links (board : Board) : Option Nat → List Placed → Prop
  | top, [] => top = none
  | top, (slot, queue) :: below => top = some slot ∧
    ∃ name next, board.slots[slot]? = some ⟨name, .queue queue, next⟩ ∧ board.Links next below

/-- Queues are the stack of a board, if it begins at a slot. -/
structure Piles (board : Board) (top : Option Nat) (pile : List Placed) : Prop where
  links : board.Links top pile
  distinct : (pile.map (·.1)).Nodup
  plain : ∀ placed ∈ pile, placed.2.Plain

variable {board other : Board} {pile : List Placed} {slot : Nat} {queue : TokenQueue} {fuel : Nat}

theorem Links.congr {top : Option Nat} (links : board.Links top pile)
    (same : ∀ placed ∈ pile, other.slots[placed.1]? = board.slots[placed.1]?) :
    other.Links top pile := by
  induction pile generalizing top with
  | nil => exact links
  | cons placed below ih =>
    obtain ⟨slot, queue⟩ := placed
    obtain ⟨onTop, name, next, found, links⟩ := links
    obtain ⟨here, later⟩ := List.forall_mem_cons.mp same
    exact ⟨onTop, name, next, here.trans found, ih links later⟩

theorem Links.length_le {top : Option Nat} (links : board.Links top pile)
    (distinct : (pile.map (·.1)).Nodup) : pile.length ≤ board.slots.size := by
  have inside : pile.map (·.1) ⊆ List.range board.slots.size := by
    clear distinct
    induction pile generalizing top with
    | nil => simp
    | cons placed below ih =>
      obtain ⟨slot, queue⟩ := placed
      obtain ⟨onTop, name, next, found, links⟩ := links
      refine List.cons_subset.mpr ⟨?_, ih links⟩
      exact List.mem_range.mpr (Array.getElem?_eq_some_iff.mp found).1
  simpa using (distinct.subperm inside).length_le

theorem Links.chain {top : Option Nat} (links : board.Links top pile) {bound : Nat}
    (enough : pile.length ≤ bound) : board.chain bound top = pile.map (·.1) := by
  induction pile generalizing top bound with
  | nil =>
    obtain rfl : top = none := links
    cases bound <;> rfl
  | cons placed below ih =>
    obtain ⟨slot, queue⟩ := placed
    obtain ⟨rfl, name, next, found, links⟩ := links
    obtain ⟨bound, rfl⟩ := Nat.exists_eq_add_one_of_ne_zero (Nat.ne_zero_of_lt enough)
    rw [Board.chain, found]
    exact congrArg (slot :: ·) (ih links (Nat.le_of_succ_le_succ enough))

theorem Piles.stack (piles : board.Piles board.top pile) : stack board =
    .ok (pile.map (·.1)) board := by
  have chain := piles.links.chain (piles.links.length_le piles.distinct)
  exact congrArg (EStateM.Result.ok · board) chain

/-- A board on which a queue has come to the top. -/
def serve (board : Board) (slot : Nat) (queue : TokenQueue) : Board :=
  { board with
    top := some slot
    slots := board.slots.modify slot fun found => { found with stream := .queue queue } }

variable {stream : TokenStream} {uppers : List Placed} {bottom : Placed}

theorem modify_stream {name : String} {next : Option Nat}
    (found : board.slots[slot]? = some ⟨name, stream, next⟩) :
    (board.slots.modify slot fun found => { found with stream }) = board.slots := by
  refine Array.ext_getElem? fun i => ?_
  rw [Array.getElem?_modify]
  split
  next same =>
    subst same
    rw [found]
    rfl
  next => rfl

variable {name : String} {under : Option Nat}

theorem bind_of_ok {α β : Type} {action : BoardM α} {following : α → BoardM β} {value : α}
    {after : Board} (ran : action board = .ok value after) :
    (action >>= following) board = following value after := by
  simp only [bind, EStateM.bind, ran]

theorem streamAt_of_found (found : board.slots[slot]? = some ⟨name, stream, under⟩) :
    streamAt slot board = .ok stream board := by
  unfold streamAt
  refine (bind_of_ok rfl).trans ?_
  rw [found]
  rfl

theorem peek_queue (fuel : Nat)
    (found : board.slots[slot]? = some ⟨name, .queue queue, under⟩) :
    peek (fuel + 1) slot board = .ok (queue.head, slot) board := by
  have same := modify_stream found
  simp only [peek, bind, EStateM.bind, streamAt_of_found found]
  change EStateM.Result.ok _ { board with slots := _ } = _
  rw [same]
  rfl

theorem readOnTop_queue (fuel : Nat)
    (found : board.slots[slot]? = some ⟨name, .queue queue, under⟩) :
    readOnTop (fuel + 1) slot board = .ok (queue.head, slot) (board.serve slot queue.advance) := by
  have same := modify_stream found
  have shown : streamAt slot { board with top := some slot } = .ok (.queue queue) _ :=
    streamAt_of_found found
  have topped : setTop (some slot) board = .ok () { board with top := some slot } := rfl
  simp only [readOnTop, read, bind, EStateM.bind, topped, shown]
  change EStateM.Result.ok _ { board with
    top := some slot
    slots := (board.slots.modify slot fun found => { found with stream := .queue queue }).modify
      slot _ } = _
  rw [same]
  rfl

theorem Piles.serve {top : Option Nat} (piles : board.Piles top ((slot, queue) :: pile)) :
    (board.serve slot queue.advance).Piles (some slot) ((slot, queue.advance) :: pile) := by
  obtain ⟨⟨-, name, next, found, links⟩, distinct, plain⟩ := piles
  obtain ⟨fresh, -⟩ := List.nodup_cons.mp distinct
  obtain ⟨here, later⟩ := List.forall_mem_cons.mp plain
  refine ⟨⟨rfl, name, next, ?_, links.congr fun placed member => ?_⟩, distinct,
    List.forall_mem_cons.mpr ⟨here.advance, later⟩⟩
  · simp [Board.serve, Array.getElem?_modify, found]
  · have apart : slot ≠ placed.1 := by
      rintro rfl
      exact fresh (List.mem_map.mpr ⟨placed, member, rfl⟩)
    simp [Board.serve, Array.getElem?_modify, apart]

theorem Piles.below {top : Option Nat} {placed : Placed}
    (piles : board.Piles top (placed :: pile)) : ∃ next, board.Piles next pile := by
  obtain ⟨⟨-, name, next, found, links⟩, distinct, plain⟩ := piles
  exact ⟨next, links, (List.nodup_cons.mp distinct).2, (List.forall_mem_cons.mp plain).2⟩

theorem tagged_cons : tagged ((slot, queue) :: pile) = queue.tokens.map (·, slot) ++ tagged pile :=
  List.flatMap_cons

theorem concatenation_of_empty (empty : queue.tokens = []) :
    concatenation ((slot, queue) :: uppers) bottom =
      { concatenation uppers bottom with top := slot } := by
  simp [concatenation, tagged_cons, empty]

theorem next_bottom : (concatenation [] (slot, queue)).next = (queue.head, slot) := by
  cases tokens : queue.tokens <;>
    simp [concatenation, Concatenation.next, tagged, TokenQueue.head, tokens]

theorem next_cons {token : Token} {rest : List Token} (tokens : queue.tokens = token :: rest) :
    (concatenation ((slot, queue) :: uppers) bottom).next = (queue.head, slot) := by
  simp [concatenation, Concatenation.next, tagged_cons, TokenQueue.head, tokens]

/-- **A read** takes the next token of the list. -/
theorem Piles.read (fuel : Nat) {top : Option Nat} (piles : board.Piles top (uppers ++ [bottom])) :
    ∃ after uppers' bottom', Stack.read (readOnTop (fuel + 1))
      ((uppers ++ [bottom]).map (·.1)) board =
        .ok ((concatenation uppers bottom).next.1, (uppers' ++ [bottom']).map (·.1)) after ∧
      after.Piles after.top (uppers' ++ [bottom']) ∧
      concatenation uppers' bottom' = (concatenation uppers bottom).advance := by
  induction uppers generalizing board top with
  | nil =>
    obtain ⟨slot, queue⟩ := bottom
    obtain ⟨-, name, under, found, -⟩ := piles.links
    rw [Concatenation.advance, next_bottom]
    refine ⟨_, [], (slot, queue.advance), bind_of_ok (readOnTop_queue fuel found), piles.serve, ?_⟩
    simp [concatenation, tagged, TokenQueue.advance]
  | cons placed uppers ih =>
    obtain ⟨slot, queue⟩ := placed
    obtain ⟨-, name, under, found, -⟩ := piles.links
    have served := piles.serve
    rw [List.cons_append, List.map_cons, Stack.read_push _ _ (by simp),
      bind_of_ok (readOnTop_queue fuel found), (piles.plain _ List.mem_cons_self).isEof_head]
    cases tokens : queue.tokens with
    | nil =>
      obtain ⟨under, below⟩ := served.below
      obtain ⟨after, uppers', bottom', ran, piles, left⟩ := ih below
      rw [concatenation_of_empty tokens]
      exact ⟨after, uppers', bottom', ran, piles, left⟩
    | cons token rest =>
      rw [Concatenation.advance, next_cons tokens]
      refine ⟨_, (slot, queue.advance) :: uppers, bottom, rfl, served, ?_⟩
      simp [concatenation, tagged_cons, TokenQueue.advance, tokens]

/-- **A peek** shows the next token of the list and changes nothing. -/
theorem Piles.peek (fuel : Nat) {top : Option Nat} (piles : board.Piles top (uppers ++ [bottom])) :
    Stack.peek (Board.peek (fuel + 1)) ((uppers ++ [bottom]).map (·.1)) board =
      .ok ((concatenation uppers bottom).next.1, (uppers ++ [bottom]).map (·.1)) board := by
  induction uppers generalizing top with
  | nil =>
    obtain ⟨slot, queue⟩ := bottom
    obtain ⟨-, name, under, found, -⟩ := piles.links
    rw [next_bottom]
    exact bind_of_ok (peek_queue fuel found)
  | cons placed uppers ih =>
    obtain ⟨slot, queue⟩ := placed
    obtain ⟨-, name, under, found, -⟩ := piles.links
    rw [List.cons_append, List.map_cons, Stack.peek_push _ _ (by simp),
      bind_of_ok (peek_queue fuel found), (piles.plain _ List.mem_cons_self).isEof_head]
    cases tokens : queue.tokens with
    | nil =>
      obtain ⟨under, below⟩ := piles.below
      rw [concatenation_of_empty tokens]
      exact bind_of_ok (ih below)
    | cons token rest =>
      rw [next_cons tokens]
      rfl

/-- **The next stream** is the one that the next token comes from. -/
theorem Piles.next (fuel : Nat) {top : Option Nat} (piles : board.Piles top (uppers ++ [bottom])) :
    ∃ exhausted below, Stack.next (Board.peek (fuel + 1)) ((uppers ++ [bottom]).map (·.1)) board =
      .ok (exhausted, (concatenation uppers bottom).next.2 :: below) board := by
  induction uppers generalizing top with
  | nil => exact ⟨[], [], by rw [next_bottom]; rfl⟩
  | cons placed uppers ih =>
    obtain ⟨slot, queue⟩ := placed
    obtain ⟨-, name, under, found, -⟩ := piles.links
    rw [List.cons_append, List.map_cons, Stack.next_push (by simp),
      bind_of_ok (peek_queue fuel found),
      (piles.plain _ List.mem_cons_self).isEof_head]
    cases tokens : queue.tokens with
    | nil =>
      obtain ⟨under, below⟩ := piles.below
      obtain ⟨exhausted, below, ran⟩ := ih below
      rw [concatenation_of_empty tokens]
      exact ⟨slot :: exhausted, below, bind_of_ok ran⟩
    | cons token rest =>
      rw [next_cons tokens]
      exact ⟨[], _, rfl⟩

/-- **Newlines are skipped** as long as they come next in the list. -/
theorem Piles.skipNewlines (fuel : Nat) {bound : Nat}
    (piles : board.Piles board.top (uppers ++ [bottom]))
    (enough : (concatenation uppers bottom).rest.length < bound) :
    ∃ stack after uppers' bottom',
      Stack.skipNewlines (readOnTop (fuel + 1)) (Board.peek (fuel + 1)) bound
        ((uppers ++ [bottom]).map (·.1)) board = .ok stack after ∧
      after.Piles after.top (uppers' ++ [bottom']) ∧
      concatenation uppers' bottom' = ((concatenation uppers bottom).answer .skipNewlines).2 := by
  induction bound generalizing board uppers bottom with
  | zero => cases enough
  | succ bound ih =>
    rw [Stack.skipNewlines_succ, bind_of_ok (piles.peek fuel)]
    by_cases newline : (concatenation uppers bottom).next.1.kind = .newline
    · obtain ⟨after, uppers', bottom', ran, left, same⟩ := piles.read fuel
      have ends := (piles.plain bottom List.mem_concat_self).finish
      obtain ⟨shorter, skipped⟩ := Concatenation.skipNewlines_of_newline ends newline
      have fewer : (concatenation uppers' bottom').rest.length < bound := by
        rw [same]
        omega
      obtain ⟨stack, last, uppers', bottom', skips, left, rest⟩ := ih left fewer
      refine ⟨stack, last, uppers', bottom', ?_, left, ?_⟩
      · rw [if_pos (by simpa using newline), bind_of_ok ran]
        exact skips
      · rw [rest, same, skipped]
    · rw [if_neg (by simpa using newline)]
      exact ⟨_, board, uppers, bottom, rfl, piles,
        (Concatenation.skipNewlines_of_other newline).symm⟩

/-- A board whose stack makes up a list. -/
def Shows (board : Board) (whole : Concatenation) : Prop :=
  ∃ uppers bottom, board.Piles board.top (uppers ++ [bottom]) ∧ concatenation uppers bottom = whole

variable {whole : Concatenation}

theorem Shows.top (shows : board.Shows whole) : board.top = some whole.top := by
  obtain ⟨uppers, bottom, piles, rfl⟩ := shows
  cases uppers with
  | nil => exact piles.links.1
  | cons placed uppers => exact piles.links.1

theorem Shows.readStack (shows : board.Shows whole) (fuel : Nat) :
    ∃ after, Board.readStack (fuel + 1) board = .ok whole.next.1 after ∧
      after.Shows whole.advance := by
  obtain ⟨uppers, bottom, piles, rfl⟩ := shows
  obtain ⟨after, uppers', bottom', ran, left, same⟩ := piles.read fuel
  exact ⟨after, (bind_of_ok piles.stack).trans (bind_of_ok ran), uppers', bottom', left, same⟩

theorem Shows.peekStack (shows : board.Shows whole) (fuel : Nat) :
    Board.peekStack (fuel + 1) board = .ok whole.next.1 board := by
  obtain ⟨uppers, bottom, piles, rfl⟩ := shows
  exact (bind_of_ok piles.stack).trans (bind_of_ok (piles.peek fuel))

theorem Shows.nextSlot (shows : board.Shows whole) (fuel : Nat) :
    Board.nextSlot (fuel + 1) board = .ok whole.next.2 board := by
  obtain ⟨uppers, bottom, piles, rfl⟩ := shows
  obtain ⟨exhausted, below, ran⟩ := piles.next fuel
  exact (bind_of_ok piles.stack).trans (bind_of_ok ran)

theorem Shows.topSlot (shows : board.Shows whole) : Board.topSlot board = .ok whole.top board := by
  unfold Board.topSlot
  refine (bind_of_ok rfl).trans ?_
  rw [shows.top]
  rfl

/-- **A request** to a stack is answered as the list answers it. -/
theorem Shows.ask (shows : board.Shows whole) (enough : whole.rest.length < fuel)
    (request : Request) :
    ∃ after, Board.ask fuel request board = .ok (whole.answer request).1 after ∧
      after.Shows (whole.answer request).2 := by
  obtain ⟨fuel, rfl⟩ := Nat.exists_eq_add_one_of_ne_zero (Nat.ne_zero_of_lt enough)
  cases request with
  | read =>
    obtain ⟨after, ran, left⟩ := shows.readStack fuel
    exact ⟨after, bind_of_ok ran, left⟩
  | peek => exact ⟨board, bind_of_ok (shows.peekStack fuel), shows⟩
  | next => exact ⟨board, bind_of_ok (shows.nextSlot fuel), shows⟩
  | skipNewlines =>
    obtain ⟨uppers, bottom, piles, rfl⟩ := shows
    obtain ⟨stack, after, uppers', bottom', ran, left, same⟩ := piles.skipNewlines fuel enough
    refine ⟨after, ?_, uppers', bottom', left, same⟩
    exact bind_of_ok ((bind_of_ok piles.stack).trans (bind_of_ok ran))
  | top => exact ⟨board, bind_of_ok shows.topSlot, shows⟩

theorem Concatenation.length_answer_le (whole : Concatenation) (request : Request) :
    (whole.answer request).2.rest.length ≤ whole.rest.length := by
  cases request with
  | read => exact List.length_tail ▸ Nat.sub_le _ _
  | skipNewlines => exact (List.dropWhile_sublist _).length_le
  | peek | next | top => exact Nat.le_refl _

/-- **Requests** one after another. -/
theorem Shows.asks (shows : board.Shows whole) (enough : whole.rest.length < fuel)
    (requests : List Request) :
    ∃ after left, requests.mapM (Board.ask fuel) board = .ok (whole.answers requests) after ∧
      after.Shows left := by
  induction requests generalizing board whole with
  | nil => exact ⟨board, whole, rfl, shows⟩
  | cons request requests ih =>
    obtain ⟨middle, asked, shows⟩ := shows.ask enough request
    obtain ⟨after, left, ran, shows⟩ :=
      ih shows (Nat.lt_of_le_of_lt (whole.length_answer_le request) enough)
    refine ⟨after, left, ?_, shows⟩
    rw [List.mapM_cons, bind_of_ok asked]
    exact bind_of_ok ran

/-- A queue that is pushed lies on top of the pile, and nothing else on the board changes. -/
theorem Piles.push (piles : board.Piles board.top pile) (fresh : slot ∉ pile.map (·.1))
    (plain : queue.Plain) (found : board.slots[slot]? = some ⟨name, .queue queue, under⟩) :
    ∃ after, Board.push slot board = .ok () after ∧ after.Piles after.top ((slot, queue) :: pile) ∧
      ∀ other, other ≠ slot → after.slots[other]? = board.slots[other]? := by
  have frame : ∀ other, other ≠ slot → (board.slots.modify slot fun found =>
      { found with below := board.top })[other]? = board.slots[other]? := by
    intro other apart
    rw [Array.getElem?_modify, if_neg (Ne.symm apart)]
  refine ⟨_, rfl, ⟨⟨rfl, name, board.top, ?_, ?_⟩, ?_, ?_⟩, frame⟩
  · simp [Array.getElem?_modify, found]
  · refine piles.links.congr fun placed member => frame _ ?_
    rintro rfl
    exact fresh (List.mem_map_of_mem member)
  · exact List.nodup_cons.mpr ⟨fresh, piles.distinct⟩
  · exact List.forall_mem_cons.mpr ⟨plain, piles.plain⟩

/-- Pushes queues, the bottom one first. -/
def pushAll (pile : List Placed) : BoardM Unit :=
  forM pile.reverse fun placed => push placed.1

/-- **Queues that are pushed** one after another are the stack. -/
theorem piles_of_pushed (unused : board.top = none) (distinct : (pile.map (·.1)).Nodup)
    (plain : ∀ placed ∈ pile, placed.2.Plain) (held : ∀ placed ∈ pile, ∃ name under,
      board.slots[placed.1]? = some ⟨name, .queue placed.2, under⟩) :
    ∃ after, pushAll pile board = .ok () after ∧
      after.Piles after.top pile ∧
      ∀ other, other ∉ pile.map (·.1) → after.slots[other]? = board.slots[other]? := by
  induction pile with
  | nil => exact ⟨board, rfl, ⟨unused, List.nodup_nil, by simp⟩, fun _ _ => rfl⟩
  | cons placed pile ih =>
    obtain ⟨slot, queue⟩ := placed
    obtain ⟨fresh, distinct⟩ := List.nodup_cons.mp distinct
    obtain ⟨here, plain⟩ := List.forall_mem_cons.mp plain
    obtain ⟨⟨name, under, found⟩, held⟩ := List.forall_mem_cons.mp held
    obtain ⟨middle, pushed, piles, frame⟩ := ih distinct plain held
    obtain ⟨after, push, piles, same⟩ := piles.push fresh here ((frame slot fresh).trans found)
    refine ⟨after, ?_, piles, fun other absent => ?_⟩
    · rw [pushAll, List.reverse_cons, List.forM_append]
      exact (bind_of_ok pushed).trans (bind_of_ok push)
    · obtain ⟨apart, absent⟩ := not_or.mp (mt List.mem_cons.mpr absent)
      exact (same other apart).trans (frame other absent)

/-- **A stack of queues is their concatenation.** Distinct queues without ends among their tokens
are pushed, in any state of being read. To all requests the stack gives the answers of the list of
the tokens that are left, from the top down: reads take its tokens and then the end of the bottom
queue forever, and skipping takes its newlines in front. Wherever the requests lead, a peek shows
what a read takes, the next stream is the one that a read puts on top, and neither changes anything.
-/
theorem requests_answer_concatenation {uppers : List Placed} {bottom : Placed}
    (unused : board.top = none) (distinct : ((uppers ++ [bottom]).map (·.1)).Nodup)
    (plain : ∀ placed ∈ uppers ++ [bottom], placed.2.Plain)
    (held : ∀ placed ∈ uppers ++ [bottom], ∃ name under,
      board.slots[placed.1]? = some ⟨name, .queue placed.2, under⟩)
    (enough : (concatenation uppers bottom).rest.length < fuel) (requests : List Request) :
    ∃ final, (do
        pushAll (uppers ++ [bottom])
        requests.mapM (ask fuel)) board =
          .ok ((concatenation uppers bottom).answers requests) final ∧
      ∃ token slot after, peekStack fuel final = .ok token final ∧ nextSlot fuel final =
        .ok slot final ∧
        readStack fuel final = .ok token after ∧ after.top = some slot := by
  obtain ⟨start, pushed, piles, -⟩ := piles_of_pushed unused distinct plain held
  have shows : start.Shows (concatenation uppers bottom) := ⟨uppers, bottom, piles, rfl⟩
  obtain ⟨final, left, asked, shows⟩ := shows.asks enough requests
  obtain ⟨fuel, rfl⟩ := Nat.exists_eq_add_one_of_ne_zero (Nat.ne_zero_of_lt enough)
  obtain ⟨after, read, behind⟩ := shows.readStack fuel
  exact ⟨final, (bind_of_ok pushed).trans asked, _, _, after, shows.peekStack fuel,
    shows.nextSlot fuel, read, behind.top⟩

theorem requests_answer_over_exhausted :
    let newline : Token := ⟨.newline, "", ⟨"f", 1, 2⟩, false⟩
    let name : Token := ⟨.identifier, "x", ⟨"f", 2, 1⟩, false⟩
    let finish : Token := .endOfInput ⟨"f", 2, 2⟩
    let bottom : TokenQueue := { tokens := [newline, name], finish }
    let upper : TokenQueue := { tokens := [], finish }
    ∃ final, (do
        pushAll [(1, upper), (0, bottom)]
        [Request.top, .next, .skipNewlines, .peek, .read, .read, .read, .top].mapM (ask 3))
        { slots := #[⟨"b", .queue bottom, none⟩, ⟨"u", .queue upper, none⟩] } =
        .ok [.slot 1, .slot 0, .done, .token name, .token name, .token finish, .token finish,
          .slot 0]
          final := by
  intro newline name finish bottom upper
  have plain : ∀ placed ∈ [(1, upper), (0, bottom)], placed.2.Plain :=
    List.forall_mem_cons.mpr ⟨⟨by decide, by decide⟩,
      List.forall_mem_singleton.mpr ⟨by decide, by decide⟩⟩
  obtain ⟨final, ran, -⟩ := @requests_answer_concatenation
    { slots := #[⟨"b", .queue bottom, none⟩, ⟨"u", .queue upper, none⟩] } 3 [(1, upper)] (0, bottom)
    rfl (by decide) plain (by simp) (by decide)
    [.top, .next, .skipNewlines, .peek, .read, .read, .read, .top]
  exact ⟨final, ran⟩

end Board

end Preproc
