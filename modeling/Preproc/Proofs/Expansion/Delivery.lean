import Preproc.Expansion.Settle

/-! # What a stream delivers

`Runs` is the judgement about actions of the engine that start in a context of some kind, and
`Meets` the one about actions that leave the macro table alone: they report nothing unless they may
be loud. `Yields` is total correctness for such actions. A stream *delivers* a list of tokens if
settling it shows the first of them, advancing it takes that one away, and at the end of the list it
shows an end forever. A stack delivers what its streams deliver, from the top down.
-/

namespace Preproc

namespace Stack

variable {α σ : Type} (one : α → EStateM Failure σ (Token × α)) (top : α) {below : List α}

theorem read_cons : read one (top :: below) = do
    let found ← one top
    if found.1.isEof && !below.isEmpty then read one below
    else return (found.1, found.2 :: below) := by
  cases below with
  | nil => simp [read]
  | cons second below => simp [read]

theorem peek_cons : peek one (top :: below) = do
    let found ← one top
    if found.1.isEof && !below.isEmpty then do
      let next ← peek one below
      return (next.1, found.2 :: next.2)
    else return (found.1, found.2 :: below) := by
  cases below with
  | nil => simp [peek]
  | cons second below => simp [peek]

theorem read_push (nonempty : below ≠ []) : read one (top :: below) = do
    let found ← one top
    if found.1.isEof then read one below else return (found.1, found.2 :: below) := by
  simp [read_cons, nonempty]

theorem peek_push (nonempty : below ≠ []) : peek one (top :: below) = do
    let found ← one top
    if found.1.isEof then do
      let next ← peek one below
      return (next.1, found.2 :: next.2)
    else return (found.1, found.2 :: below) := by
  simp [peek_cons, nonempty]

end Stack

variable {context : Context}

theorem Engine.bind_ok_iff {α β : Type} {action : Engine α} {next : α → Engine β}
    {last : Context} {result : β} : (action >>= next) context = .ok result last ↔
      ∃ value middle, action context = .ok value middle ∧ next value middle = .ok result last := by
  change EStateM.bind action next context = _ ↔ _
  unfold EStateM.bind
  constructor
  · intro ran
    cases began : action context with
    | error failure middle =>
      rw [began] at ran
      cases ran
    | ok value middle =>
      rw [began] at ran
      exact ⟨value, middle, rfl, ran⟩
  · rintro ⟨value, middle, began, ran⟩
    rw [began]
    exact ran

namespace Engine

/-- Started in a context of one kind, an action succeeds with a value as stated, in a context of a
kind that goes with the value, or fails in a way that is possible. -/
structure Runs {α : Type} (fails : Failure → Prop) (before : Context → Prop) (action : Engine α)
    (after : α → Context → Prop) (gives : α → Prop) : Prop where
  done : ∀ {context value next}, before context → action context = .ok value next →
    after value next ∧ gives value
  failed : ∀ {context failure next}, before context → action context = .error failure next →
    fails failure

namespace Runs

variable {α β : Type} {fails : Failure → Prop} {before : Context → Prop}
  {after after' : α → Context → Prop} {action : Engine α} {gives gives' : α → Prop}

theorem bind {next : α → Engine β} {last : β → Context → Prop} {wanted : β → Prop}
    (first : Runs fails before action after gives)
    (rest : ∀ value, gives value → Runs fails (after value) (next value) last wanted) :
    Runs fails before (action >>= next) last wanted := by
  constructor
  · intro context value last start ran
    obtain ⟨found, read, began, ran⟩ := bind_ok_iff.mp ran
    obtain ⟨kept, given⟩ := first.done start began
    exact (rest found given).done kept ran
  · intro context failure last start ran
    change EStateM.bind action next context = _ at ran
    unfold EStateM.bind at ran
    cases began : action context with
    | error other read =>
      rw [began] at ran
      cases ran
      exact first.failed start began
    | ok found read =>
      rw [began] at ran
      obtain ⟨kept, given⟩ := first.done start began
      exact (rest found given).failed kept ran

theorem of_ok {value : α} {change : Context → Context}
    (ran : ∀ context, before context → action context = .ok value (change context))
    (holds : gives value) (contexts : ∀ context, before context → after value (change context)) :
    Runs fails before action after gives := by
  constructor
  · intro context found next start done
    rw [ran context start] at done
    cases done
    exact ⟨contexts context start, holds⟩
  · intro context failure next start failed
    rw [ran context start] at failed
    cases failed

theorem value {value : α} (holds : gives value)
    (contexts : ∀ context, before context → after value context) :
    Runs fails before (pure value) after gives :=
  .of_ok (fun _ _ => rfl) holds contexts

theorem pure {value : α} (holds : gives value) :
    Runs fails before (pure value) (fun _ => before) gives :=
  .value holds fun _ => id

theorem throw {failure : Failure} (possible : fails failure) :
    Runs fails before (throw failure : Engine α) after gives := by
  constructor
  · intro context found next start ran
    cases ran
  · intro context failure next start ran
    cases ran
    exact possible

theorem imp (runs : Runs fails before action after gives)
    (contexts : ∀ value context, after value context → after' value context)
    (values : ∀ value, gives value → gives' value) :
    Runs fails before action after' gives' := by
  constructor
  · intro context value next start ran
    exact (runs.done start ran).imp (contexts value next) (values value)
  · exact runs.failed

theorem before_imp {before' : Context → Prop} (runs : Runs fails before action after gives)
    (contexts : ∀ context, before' context → before context) :
    Runs fails before' action after gives :=
  ⟨fun start ran => runs.done (contexts _ start) ran,
    fun start ran => runs.failed (contexts _ start) ran⟩

end Runs

/-- Where an action succeeds, it gives a value as stated. -/
abbrev Ensures {α : Type} (action : Engine α) (condition : α → Prop) : Prop :=
  Runs (fun _ => True) (fun _ => True) action (fun _ _ => True) condition

namespace Ensures

variable {α β : Type} {action : Engine α} {condition : α → Prop} {next : α → Engine β}
  {wanted : β → Prop}

theorem of_ok (gives : ∀ {context value next}, action context = .ok value next → condition value) :
    Ensures action condition :=
  ⟨fun _ ran => ⟨True.intro, gives ran⟩, fun _ _ => True.intro⟩

theorem gives (ensures : Ensures action condition) {last : Context} {value : α}
    (ran : action context = .ok value last) : condition value :=
  (ensures.done True.intro ran).2

theorem trivial (action : Engine α) : Ensures action fun _ => True :=
  of_ok fun _ => True.intro

theorem bind (first : Ensures action condition)
    (rest : ∀ value, condition value → Ensures (next value) wanted) :
    Ensures (action >>= next) wanted :=
  Runs.bind first rest

theorem after (rest : ∀ value, Ensures (next value) wanted) : Ensures (action >>= next) wanted :=
  bind (trivial action) fun value _ => rest value

end Ensures

/-- A context with the table, in which nothing was reported since the sink unless it may be loud. -/
def Within (table : MacroTable) (loud : Prop) (sink : Sink) (context : Context) : Prop :=
  context.table = table ∧ (loud ∨ context.sink = sink)

/-- From every context with the table, an action fails in a way that is possible, or it succeeds,
keeps the table, reports nothing unless it may be loud, and gives a value as stated. -/
def Meets {α : Type} (fails : Failure → Prop) (table : MacroTable) (loud : Prop) (action : Engine α)
    (condition : α → Prop) : Prop :=
  ∀ sink, Runs fails (Within table loud sink) action (fun _ => Within table loud sink) condition

/-- The action succeeds. -/
abbrev Yields {α : Type} : MacroTable → Prop → Engine α → (α → Prop) → Prop :=
  Meets fun _ => False

/-- Nothing is said of the action where it fails. -/
abbrev Grants {α : Type} : MacroTable → Prop → Engine α → (α → Prop) → Prop :=
  Meets fun _ => True

namespace Meets

variable {α β : Type} {fails : Failure → Prop} {table : MacroTable} {loud : Prop}
  {action : Engine α} {condition condition' : α → Prop}

theorem done (meets : Meets fails table loud action condition) {next : Context} {value : α}
    (same : context.table = table) (ran : action context = .ok value next) :
    next.table = table ∧ (loud ∨ next.sink = context.sink) ∧ condition value :=
  and_assoc.mp ((meets context.sink).done ⟨same, .inr rfl⟩ ran)

theorem bind {next : α → Engine β} {wanted : β → Prop}
    (first : Meets fails table loud action condition)
    (rest : ∀ value, condition value → Meets fails table loud (next value) wanted) :
    Meets fails table loud (action >>= next) wanted :=
  fun sink => (first sink).bind fun value holds => rest value holds sink

theorem pure {value : α} (holds : condition value) :
    Meets fails table loud (pure value) condition :=
  fun _ => .pure holds

theorem throw {failure : Failure} (possible : fails failure) :
    Meets fails table loud (throw failure : Engine α) condition :=
  fun _ => .throw possible

section

variable (meets : Meets fails table loud action condition)

include meets

theorem image {wrap : α → β} : Meets fails table loud (do return wrap (← action)) fun wrapped =>
      ∃ value, wrapped = wrap value ∧ condition value :=
  bind meets fun value holds => pure ⟨value, rfl, holds⟩

theorem imp (weaker : ∀ value, condition value → condition' value) :
    Meets fails table loud action condition' :=
  fun sink => (meets sink).imp (fun _ _ => id) weaker

theorem also (ensures : Ensures action condition') :
    Meets fails table loud action fun value => condition value ∧ condition' value := by
  refine fun sink => ⟨fun start ran => ?_, (meets sink).failed⟩
  obtain ⟨kept, holds⟩ := (meets sink).done start ran
  exact ⟨kept, holds, ensures.gives ran⟩

end

theorem ensures (grants : ∀ table, Grants table True action condition) : Ensures action condition :=
  .of_ok fun ran => ((grants _).done rfl ran).2.2

theorem congr {other : Engine α} (meets : Meets fails table loud other condition)
    (same : ∀ context, context.table = table → action context = other context) :
    Meets fails table loud action condition :=
  fun sink => ⟨fun start ran => (meets sink).done start (same _ start.1 ▸ ran),
    fun start ran => (meets sink).failed start (same _ start.1 ▸ ran)⟩

theorem trace (event : Event) : Meets fails table loud (Engine.trace event) fun _ => True :=
  fun _ => .of_ok (fun _ _ => rfl) trivial fun _ kept => kept

theorem allocate (text : String) : Meets fails table loud (Engine.allocate text) fun _ => True :=
  fun _ => .of_ok (fun _ _ => rfl) trivial fun _ kept => kept

theorem report (may : loud) (place : Location) (notice : Notice) :
    Meets fails table loud (Engine.report place notice) fun _ => True :=
  fun _ => .of_ok (fun _ _ => rfl) trivial fun _ kept => ⟨kept.1, .inl may⟩

theorem rescan (may : loud) (text : String) (place : Location) :
    Meets fails table loud (Engine.rescan text place) (· = Preproc.rescan text place) := by
  have reports (flaws : List Flaw) :
      Meets fails table loud (flaws.forM Engine.reportFlaw) fun _ => True := by
    induction flaws with
    | nil => exact pure trivial
    | cons flaw flaws ih => exact bind (report may _ _) fun _ _ => ih
  exact bind (reports _) fun _ _ => pure rfl

theorem lookup (name : String) :
    Meets fails table loud (Engine.entry? name) (· = table.entry? name) := by
  refine fun _ => .of_ok ?_ rfl fun _ => id
  rintro context ⟨rfl, _⟩
  rfl

end Meets

theorem yields_iff {α : Type} {table : MacroTable} {loud : Prop} {action : Engine α}
    {condition : α → Prop} : Yields table loud action condition ↔ ∀ context, context.table = table →
      ∃ value next, action context = .ok value next ∧ next.table = table ∧
        (loud ∨ next.sink = context.sink) ∧ condition value := by
  constructor
  · intro yields context same
    cases ran : action context with
    | error failure next => exact ((yields context.sink).failed ⟨same, .inr rfl⟩ ran).elim
    | ok value next => exact ⟨value, next, rfl, yields.done same ran⟩
  · intro runs sink
    constructor
    · rintro context value next ⟨same, before⟩ ran
      obtain ⟨found, last, ran', kept, quiet, holds⟩ := runs context same
      cases ran.symm.trans ran'
      refine ⟨⟨kept, ?_⟩, holds⟩
      rcases quiet with may | quiet
      · exact .inl may
      · exact before.imp_right quiet.trans
    · intro context failure next start failed
      obtain ⟨found, last, ran, _⟩ := runs context start.1
      cases failed.symm.trans ran

end Engine

namespace TokenStream

open Engine (Yields)

/-- The next token of a list: the first one, which is no end, or an end if there is none. -/
def Shows : List Token → Token → Prop
  | [], token => token.isEof = true
  | first :: _, token => token = first ∧ first.isEof = false

/-- A relation between lists of tokens and streams that every move of some movers respects. -/
def Respected (table : MacroTable) (loud : Prop) (movers : Mover → Prop)
    (relation : List Token → TokenStream → Prop) : Prop :=
  ∀ move, movers move → ∀ tokens stream, relation tokens stream →
    Yields table loud (move .settle stream) fun settled =>
      relation tokens settled ∧ Shows tokens settled.head ∧
        Yields table loud (move .advance settled) (relation tokens.tail)

/-- A stream delivers a list of tokens, and then an end forever, whichever of some movers moves
it. -/
def Delivers (table : MacroTable) (loud : Prop) (movers : Mover → Prop) (tokens : List Token)
    (stream : TokenStream) : Prop :=
  ∃ relation, Respected table loud movers relation ∧ relation tokens stream

variable {table : MacroTable} {loud : Prop} {movers : Mover → Prop} {move : Mover}
  {tokens : List Token} {stream : TokenStream}

section

variable (delivers : Delivers table loud movers tokens stream)

include delivers

theorem Delivers.settle (able : movers move) :
    Yields table loud (move .settle stream) fun settled =>
      Delivers table loud movers tokens settled ∧ Shows tokens settled.head ∧
        Yields table loud (move .advance settled) (Delivers table loud movers tokens.tail) := by
  obtain ⟨relation, respected, related⟩ := delivers
  refine (respected move able tokens stream related).imp ?_
  intro settled ⟨kept, shown, advance⟩
  refine ⟨⟨relation, respected, kept⟩, shown, ?_⟩
  exact advance.imp fun advanced related => ⟨relation, respected, related⟩

theorem Delivers.peekWith (able : movers move) :
    Yields table loud (peekWith move stream) fun found =>
      Shows tokens found.1 ∧ Delivers table loud movers tokens found.2 :=
  .bind (delivers.settle able) fun _ ⟨kept, shown, _⟩ => .pure ⟨shown, kept⟩

theorem Delivers.readWith (able : movers move) :
    Yields table loud (readWith move stream) fun found =>
      Shows tokens found.1 ∧ Delivers table loud movers tokens.tail found.2 :=
  .bind (delivers.settle able) fun _ ⟨_, shown, advance⟩ =>
    .bind advance fun _ rest => .pure ⟨shown, rest⟩

theorem Delivers.drain {fuel : Nat}
    (able : movers (TokenStream.move fuel)) {bound : Nat} (enough : tokens.length < bound) :
    Yields table loud (stream.drain fuel bound) (·.1 = tokens) := by
  induction bound generalizing stream tokens with
  | zero => exact absurd enough (Nat.not_lt_zero _)
  | succ bound ih =>
    refine .bind (delivers.readWith able) ?_
    rintro ⟨token, rest⟩ ⟨shown, later⟩
    cases tokens with
    | nil =>
      have ended : token.isEof = true := shown
      dsimp only
      rw [if_pos ended]
      exact .pure rfl
    | cons first tokens =>
      obtain ⟨rfl, noEnd⟩ := shown
      dsimp only at noEnd ⊢
      rw [if_neg (by simp [noEnd])]
      refine .bind (ih later (Nat.lt_of_succ_lt_succ enough)) ?_
      rintro ⟨rest, stream⟩ rfl
      exact .pure rfl

theorem Delivers.fewer {fewer : Mover → Prop}
    (among : ∀ move, fewer move → movers move) : Delivers table loud fewer tokens stream := by
  obtain ⟨relation, respected, related⟩ := delivers
  exact ⟨relation, fun move able => respected move (among move able), related⟩

end

/-- The movers that can take a step. -/
def Fuelled (move : Mover) : Prop :=
  ∃ fuel, move = TokenStream.move (fuel + 1)

/-- The movers with at least so much fuel. -/
def AtLeast (enough : Nat) (move : Mover) : Prop :=
  ∃ fuel, enough ≤ fuel ∧ move = TokenStream.move fuel

theorem AtLeast.fuelled {enough : Nat} (able : AtLeast (enough + 1) move) : Fuelled move := by
  obtain ⟨fuel, long, rfl⟩ := able
  obtain ⟨fuel, rfl⟩ := Nat.exists_eq_add_of_le' (Nat.le_trans (Nat.le_add_left 1 enough) long)
  exact ⟨fuel, rfl⟩

theorem shows_queue {queue : TokenQueue} (noEnd : ∀ token ∈ queue.tokens, token.isEof = false)
    (finish : queue.finish.isEof = true) : Shows queue.tokens queue.head := by
  unfold TokenQueue.head
  cases waiting : queue.tokens with
  | nil => exact finish
  | cons first rest => exact ⟨rfl, noEnd first (by simp [waiting])⟩

theorem delivers_queue {queue : TokenQueue}
    (noEnd : ∀ token ∈ queue.tokens, token.isEof = false) (finish : queue.finish.isEof = true) :
    Delivers table loud Fuelled queue.tokens (.queue queue) := by
  refine ⟨fun tokens stream => ∃ queue : TokenQueue, stream = .queue queue ∧
    queue.tokens = tokens ∧ (∀ token ∈ tokens, token.isEof = false) ∧ queue.finish.isEof = true,
    ?_, queue, rfl, rfl, noEnd, finish⟩
  rintro _ ⟨fuel, rfl⟩ tokens _ ⟨queue, rfl, rfl, noEnd, finish⟩
  refine .pure ⟨⟨queue, rfl, rfl, noEnd, finish⟩, shows_queue noEnd finish, .pure ?_⟩
  refine ⟨queue.advance, rfl, rfl, ?_, finish⟩
  intro token member
  exact noEnd token (List.mem_of_mem_tail member)

/-- A stack delivers what its streams deliver, from the top down. -/
inductive DeliversAll (table : MacroTable) (loud : Prop) (movers : Mover → Prop) :
    List Token → List TokenStream → Prop
  | bottom {tokens : List Token} {stream : TokenStream}
      (delivers : Delivers table loud movers tokens stream) :
      DeliversAll table loud movers tokens [stream]
  | push {tokens below : List Token} {stream : TokenStream} {streams : List TokenStream}
      (delivers : Delivers table loud movers tokens stream)
      (rest : DeliversAll table loud movers below streams) :
      DeliversAll table loud movers (tokens ++ below) (stream :: streams)

theorem Shows.isEof_iff {token : Token} (shown : Shows tokens token) :
    token.isEof = true ↔ tokens = [] := by
  cases tokens with
  | nil => simpa [Shows] using shown
  | cons first rest =>
    obtain ⟨rfl, noEnd⟩ := shown
    simp [noEnd]

variable {streams : List TokenStream} (delivers : DeliversAll table loud movers tokens streams)

include delivers

theorem DeliversAll.ne_nil : streams ≠ [] := by
  cases delivers <;> exact List.cons_ne_nil _ _

theorem DeliversAll.readStack (able : movers move) :
    Yields table loud (readStack move streams) fun found =>
      Shows tokens found.1 ∧ DeliversAll table loud movers tokens.tail found.2 := by
  unfold TokenStream.readStack
  induction delivers with
  | bottom delivers =>
    refine .bind (delivers.readWith able) ?_
    rintro ⟨token, stream⟩ ⟨shown, rest⟩
    exact .pure ⟨shown, .bottom rest⟩
  | @push tokens below stream streams delivers rest ih =>
    rw [Stack.read_push _ _ rest.ne_nil]
    refine .bind (delivers.readWith able) ?_
    rintro ⟨token, top⟩ ⟨shown, kept⟩
    cases tokens with
    | nil =>
      have ended : token.isEof = true := shown
      simpa [ended] using ih
    | cons first tokens =>
      obtain ⟨rfl, noEnd⟩ := shown
      simp only [noEnd]
      exact .pure ⟨⟨rfl, noEnd⟩, .push kept rest⟩

theorem DeliversAll.peekStack (able : movers move) :
    Yields table loud (peekStack move streams) fun found =>
      Shows tokens found.1 ∧ DeliversAll table loud movers tokens found.2 := by
  unfold TokenStream.peekStack
  induction delivers with
  | bottom delivers =>
    refine .bind (delivers.peekWith able) ?_
    rintro ⟨token, stream⟩ ⟨shown, rest⟩
    exact .pure ⟨shown, .bottom rest⟩
  | @push tokens below stream streams delivers rest ih =>
    rw [Stack.peek_push _ _ rest.ne_nil]
    refine .bind (delivers.peekWith able) ?_
    rintro ⟨token, top⟩ ⟨shown, kept⟩
    cases tokens with
    | nil =>
      have ended : token.isEof = true := shown
      simp only [ended]
      refine .bind ih ?_
      rintro ⟨next, streams'⟩ ⟨shown, rest⟩
      exact .pure ⟨shown, .push kept rest⟩
    | cons first tokens =>
      obtain ⟨rfl, noEnd⟩ := shown
      simp only [noEnd]
      exact .pure ⟨⟨rfl, noEnd⟩, .push kept rest⟩

end TokenStream

end Preproc
