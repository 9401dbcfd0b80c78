import Preproc.Proofs.Regime.Expansion
import Preproc.Proofs.Source.Scanned

/-! # The plain reading of ops

The plain reading of ops puts the tokens of the operands one after the other, and lets a paste join
the last token before it to the first one after it. Playback delivers this reading. What is left to
deliver while an op is being played is the reading of the ops still to come after the tokens of
that op; the proof follows how playback opens ops ahead of the token it hands out.

Main statement: `Playback.yields_prime`.
-/

namespace Preproc

def Op.Pasting (ops : List Op) : Prop :=
  ∃ op ∈ ops, op.isPaste = true

namespace Playback

open TokenStream
open Engine (Yields)
open Regime (forall_mem_spaceFirst suffix_of_cons)

def pasted (operands : List Token) (mark : Token) : List Token :=
  let text := String.join (operands.map (·.lexeme))
  if text.isEmpty then []
  else if (rescan text mark.location).isEmpty then operands.map (·.relocated mark.location)
  else rescan text mark.location

/-- The last token of a list pasted to the first token of another, between what is left of the
two. The result takes the white space of its first operand. -/
def joined (mark : Token) (before after : List Token) : List Token :=
  let operands := before.getLast?.toList ++ after.head?.toList
  before.dropLast
    ++ spaceFirst ((operands.head?.map (·.leadingSpace)).getD false) (pasted operands mark)
    ++ after.tail

/-- The plain reading of ops after the tokens of the op before them, given the tokens of each op
and the mark of each paste. -/
def reading (tokensOf : Op → List Token) (markAt : Int → Token) :
    List Token → List Op → List Token
  | current, [] => current
  | current, [.paste _ _] => current
  | current, .paste index _ :: op :: rest =>
    reading tokensOf markAt (joined (markAt index) current (tokensOf op)) rest
  | current, op :: rest => current ++ reading tokensOf markAt (tokensOf op) rest

variable {tokens current : List Token} {mark : Token} {ops : List Op}

section Plain

variable {tokensOf : Op → List Token} {markAt : Int → Token} {pasting : Prop}

theorem reading_operand (current : List Token) {op : Op} (rest : List Op)
    (operand : op.isPaste = false) :
    reading tokensOf markAt current (op :: rest) =
      current ++ reading tokensOf markAt (tokensOf op) rest := by
  cases op with
  | paste index second => cases operand
  | _ => cases rest <;> rfl

variable {operands after : List Token}

theorem solid_pasted (mark : Token) (solid : ∀ token ∈ operands, token.Firm pasting) :
    ∀ token ∈ pasted operands mark, token.Firm pasting := by
  intro token member
  unfold pasted at member
  dsimp only at member
  split at member
  · cases member
  split at member
  · obtain ⟨operand, among, rfl⟩ := List.mem_map.mp member
    exact solid operand among
  · exact (solid_of_mem_rescan member).firm

theorem pasted_ne_nil (may : pasting) (mark : Token) (nonempty : operands ≠ [])
    (solid : ∀ token ∈ operands, token.Firm pasting) : pasted operands mark ≠ [] := by
  cases operands with
  | nil => exact absurd rfl nonempty
  | cons first rest =>
    have text : (String.join ((first :: rest).map (·.lexeme))).isEmpty = false := by
      rw [String.isEmpty_eq_false_iff, List.map_cons, String.join_cons]
      intro empty
      exact (solid first (List.mem_cons_self ..)).2 may (String.append_eq_empty_iff.mp empty).1
    unfold pasted
    simp only [text]
    split
    · simp_all
    split
    · simp
    next nonempty => simpa using nonempty

theorem spaceFirst_ne_nil (leadingSpace : Bool) (nonempty : tokens ≠ []) :
    spaceFirst leadingSpace tokens ≠ [] := by
  cases tokens with
  | nil => exact nonempty
  | cons first rest => exact List.cons_ne_nil _ _

variable {before : List Token}

theorem solid_operands (left : ∀ token ∈ before, token.Firm pasting)
    (right : ∀ token ∈ after, token.Firm pasting) :
    ∀ token ∈ before.getLast?.toList ++ after.head?.toList, token.Firm pasting := by
  intro token member
  rcases List.mem_append.mp member with last | first
  · exact left token (List.mem_of_getLast? (by simpa using last))
  · exact right token (List.mem_of_head? (by simpa using first))

theorem solid_joined
    (left : ∀ token ∈ before, token.Firm pasting) (right : ∀ token ∈ after, token.Firm pasting) :
    ∀ token ∈ joined mark before after, token.Firm pasting := by
  have pastes (leadingSpace : Bool) : ∀ token ∈ spaceFirst leadingSpace
      (pasted (before.getLast?.toList ++ after.head?.toList) mark), token.Firm pasting :=
    forall_mem_spaceFirst (fun _ solid => solid) (solid_pasted mark (solid_operands left right))
  intro token member
  rcases List.mem_append.mp member with front | last
  · rcases List.mem_append.mp front with first | middle
    · exact left token ((List.dropLast_prefix before).subset first)
    · exact pastes _ token middle
  · exact right token (List.mem_of_mem_tail last)

theorem joined_ne_nil (may : pasting) (nonempty : before ≠ [])
    (left : ∀ token ∈ before, token.Firm pasting) (right : ∀ token ∈ after, token.Firm pasting) :
    joined mark before after ≠ [] := by
  have operands : before.getLast?.toList ++ after.head?.toList ≠ [] := by
    rw [List.getLast?_eq_some_getLast nonempty]
    simp
  have middle := spaceFirst_ne_nil
    (((before.getLast?.toList ++ after.head?.toList).head?.map (·.leadingSpace)).getD false)
    (pasted_ne_nil may mark operands (solid_operands left right))
  unfold joined
  simp only [ne_eq, List.append_eq_nil_iff, not_and]
  intro front
  exact absurd front.2 middle

theorem joined_cons (mark token : Token) (after : List Token) (more : before ≠ []) :
    joined mark (token :: before) after = token :: joined mark before after := by
  cases before with
  | nil => exact absurd rfl more
  | cons second before => simp [joined]

theorem reading_cons (token : Token)
    (more : current ≠ []) (solid : ∀ token ∈ current, token.Firm pasting)
    (solidOps : ∀ op ∈ ops, ∀ token ∈ tokensOf op, token.Firm pasting)
    (pastes : Op.Pasting ops → pasting) :
    reading tokensOf markAt (token :: current) ops =
      token :: reading tokensOf markAt current ops := by
  fun_induction reading tokensOf markAt current ops with
  | case1 current => rfl
  | case2 current index second => rfl
  | case3 current index second op rest ih =>
    have solidOp := solidOps op (by simp)
    rw [reading, joined_cons _ _ _ more]
    have may : pasting := pastes ⟨_, List.mem_cons_self .., rfl⟩
    refine ih (joined_ne_nil may more solid solidOp) (solid_joined solid solidOp) ?_ fun _ => may
    exact fun other member => solidOps other (by simp [member])
  | case4 current op rest notLast notPaste ih =>
    have operand := Op.isPaste_eq_false notLast notPaste
    rw [reading_operand _ _ operand]
    rfl

end Plain

section Playing

variable {table : MacroTable} {loud pasting : Prop} {movers : Mover → Prop} {move : Mover}

theorem yields_pasteTokens (may : loud) (operands : List Token) (mark : Token) :
    Yields table loud (pasteTokens operands mark) (· = pasted operands mark) := by
  unfold pasteTokens pasted
  dsimp only
  generalize String.join (operands.map (·.lexeme)) = text
  split
  · exact .pure rfl
  refine .bind (.allocate _) fun _ _ => .bind (.rescan may _ _) ?_
  rintro _ rfl
  have chosen : Yields table loud
      (if (rescan text mark.location).isEmpty then
        pure (operands.map (·.relocated mark.location))
      else pure (rescan text mark.location))
      (· = if (rescan text mark.location).isEmpty then operands.map (·.relocated mark.location)
        else rescan text mark.location) := by
    split <;> exact .pure rfl
  split
  · exact .bind (.report may _ _) fun _ _ => chosen
  · exact chosen

/-- Queues deliver their tokens. -/
def Queues (table : MacroTable) (loud : Prop) (movers : Mover → Prop) : Prop :=
  ∀ queue : TokenQueue, (∀ token ∈ queue.tokens, token.isEof = false) →
    queue.finish.isEof = true → Delivers table loud movers queue.tokens (.queue queue)

theorem Queues.ofList (queues : Queues table loud movers) (place : Location)
    (noEnd : ∀ token ∈ tokens, token.isEof = false) :
    Delivers table loud movers tokens (.queue (.ofList tokens (some place))) :=
  queues (.ofList tokens (some place)) noEnd rfl

theorem yields_synthesize (queues : Queues table loud movers) {kind : TokenKind} (text : String)
    (place : Token) (notEnd : kind ≠ .eof) :
    Yields table loud (synthesize kind text place)
      (Delivers table loud movers [{ place with kind, lexeme := text }]) := by
  refine .bind (.allocate text) fun _ _ => .pure ?_
  refine queues.ofList place.location (List.forall_mem_singleton.mpr ?_)
  simpa [Token.isEof] using notEnd

theorem yields_openSpan (queues : Queues table loud movers) (playback : Playback TokenStream)
    {first last : Int}
    (inside : 0 ≤ first ∧ first ≤ last ∧ last ≤ playback.entry.definition.body.length)
    (noEnd : ∀ token ∈ Index.slice playback.entry.definition.body first last,
      token.isEof = false) :
    Yields table loud (playback.openOp move (.span first last))
      (Delivers table loud movers (Index.slice playback.entry.definition.body first last)) := by
  obtain ⟨start, rfl⟩ := Int.eq_ofNat_of_zero_le inside.1
  obtain ⟨stop, rfl⟩ := Int.eq_ofNat_of_zero_le (Int.le_trans inside.1 inside.2.1)
  unfold openOp TokenQueue.slice
  dsimp only
  rw [Option.getD_some, if_pos inside]
  refine .bind (.pure rfl) ?_
  rintro _ rfl
  exact .pure (queues ⟨_, .endOfInput playback.entry.definition.endLocation, []⟩ noEnd rfl)

variable {token : Token} {operands : List TokenStream} {left : Option Token} {own : Bool}
  {pending : List Op}

theorem yields_exhausted (able : movers move)
    (delivers : DeliversAll table loud movers current operands)
    (ended : token.isEof = true → current = []) :
    Yields table loud (exhausted move token operands) fun found =>
      found.1 = current.isEmpty ∧ DeliversAll table loud movers current found.2 := by
  refine .bind (delivers.peekStack able) ?_
  rintro ⟨next, operands'⟩ ⟨shown, kept⟩
  dsimp only at shown kept ⊢
  have done : next.isEof = current.isEmpty := by
    rw [Bool.eq_iff_iff, shown.isEof_iff, List.isEmpty_iff]
  have sane : (!next.isEof && token.isEof) = false := by
    cases eof : token.isEof with
    | false => simp
    | true => simp [done, ended eof]
  rw [sane]
  exact .pure ⟨done, kept⟩

variable {playback : Playback TokenStream} {tokensOf : Op → List Token} {markAt : Int → Token}

theorem yields_join (may : loud) (able : movers move) (queues : Queues table loud movers) {op : Op}
    (opens : Yields table loud (playback.openOp move op) (Delivers table loud movers (tokensOf op)))
    (solid : ∀ token ∈ tokensOf op, token.Firm pasting)
    (solidLeft : ∀ token ∈ left, token.Firm pasting) :
    Yields table loud (playback.join move left mark op)
      (DeliversAll table loud movers (joined mark left.toList (tokensOf op))) := by
  refine .bind opens fun operand delivers => ?_
  refine .bind ((DeliversAll.bottom delivers).readStack able) ?_
  rintro ⟨right, operands⟩ ⟨shown, rest⟩
  dsimp only at shown rest ⊢
  have operandsOf : (if right.isEof then left.toList else left.toList ++ [right]) =
      left.toList.getLast?.toList ++ (tokensOf op).head?.toList := by
    have lefts : left.toList.getLast?.toList = left.toList := by cases left <;> rfl
    rw [lefts]
    cases opened : tokensOf op with
    | nil =>
      rw [opened] at shown
      have ended : right.isEof = true := shown
      simp [ended]
    | cons first more =>
      rw [opened] at shown
      obtain ⟨rfl, noEnd⟩ := shown
      simp [noEnd]
  rw [operandsOf]
  refine .bind (yields_pasteTokens may _ mark) ?_
  rintro _ rfl
  have solidLefts : ∀ token ∈ left.toList, token.Firm pasting := by simpa using solidLeft
  have solidPasted : ∀ token ∈ spaceFirst (left.getD right).leadingSpace
      (pasted (left.toList.getLast?.toList ++ (tokensOf op).head?.toList) mark),
        token.Firm pasting :=
    forall_mem_spaceFirst (fun _ solid => solid)
      (solid_pasted mark (solid_operands solidLefts solid))
  have whole : joined mark left.toList (tokensOf op) =
      spaceFirst (left.getD right).leadingSpace
        (pasted (left.toList.getLast?.toList ++ (tokensOf op).head?.toList) mark)
      ++ (tokensOf op).tail := by
    unfold joined
    cases left with
    | some token => simp
    | none =>
      cases opened : tokensOf op with
      | nil => simp [pasted, spaceFirst]
      | cons first more =>
        rw [opened] at shown
        obtain ⟨rfl, _⟩ := shown
        simp
  rw [whole]
  have front := queues.ofList mark.location fun token member => (solidPasted token member).1
  exact .pure (.push front rest)

/-- What is still to be delivered when a token has been taken: the token may be the last one of
the op being played, and then a paste can join it to the next op. -/
def due (tokensOf : Op → List Token) (markAt : Int → Token) (token : Token) (own : Bool)
    (current : List Token) (pending : List Op) : List Token :=
  if token.isEof then reading tokensOf markAt current pending
  else if own then reading tokensOf markAt (token :: current) pending
  else token :: reading tokensOf markAt current pending

/-- Where playback stands once a token has been found, if so many tokens are to be delivered. -/
def StandsAt (table : MacroTable) (loud : Prop) (movers : Mover → Prop) (tokensOf : Op → List Token)
    (markAt : Int → Token) (ops : List Op) (tokens : List Token) (found : Found) : Prop :=
  (tokens = [] ∧ found.token.isEof = true) ∨
    ∃ current, tokens = found.token :: reading tokensOf markAt current found.pending ∧
      found.token.Firm (Op.Pasting ops) ∧ (∀ token ∈ current, token.Firm (Op.Pasting ops)) ∧
      DeliversAll table loud movers current found.operands ∧
      (current ≠ [] ∨ found.pending = []) ∧ found.pending <:+ ops

/-- What playback needs of the ops of its macro: each operand opens a stream of its tokens, and
each mark is there. -/
structure Readable (table : MacroTable) (loud : Prop) (movers : Mover → Prop)
    (playback : Playback TokenStream) (tokensOf : Op → List Token) (markAt : Int → Token) :
      Prop where
  /-- A paste may report something. -/
  allowed : Op.Pasting playback.entry.definition.ops → loud
  queues : Queues table loud movers
  playable : playback.entry.definition.Playable
  opens : ∀ move, movers move → ∀ op ∈ playback.entry.definition.ops, op.isPaste = false →
    Yields table loud (playback.openOp move op) (Delivers table loud movers (tokensOf op))
  solid : ∀ op ∈ playback.entry.definition.ops, ∀ token ∈ tokensOf op,
    token.Firm (Op.Pasting playback.entry.definition.ops)
  marks : ∀ index second, Op.paste index second ∈ playback.entry.definition.ops →
    Index.get? playback.entry.definition.body index = some (markAt index)

theorem yields_bodyToken {index : Int}
    (there : Index.get? playback.entry.definition.body index = some mark) :
    Yields table loud (playback.bodyToken index) (· = mark) := by
  unfold bodyToken item
  rw [there]
  exact .pure rfl

theorem due_of_more (solidOps : ∀ op ∈ pending, ∀ token ∈ tokensOf op, token.Firm pasting)
    (pastes : Op.Pasting pending → pasting) (solid : ∀ token ∈ current, token.Firm pasting)
    (more : current ≠ []) (noEnd : token.isEof = false) :
    due tokensOf markAt token own current pending =
      token :: reading tokensOf markAt current pending := by
  unfold due
  rw [noEnd]
  cases own with
  | false => rfl
  | true => exact reading_cons token more solid solidOps pastes

theorem due_of_left (chosen : (if own && !token.isEof then some token else none) = left)
    (passes : (left.isSome || token.isEof) = true) :
    due tokensOf markAt token own [] ops = reading tokensOf markAt left.toList ops := by
  subst chosen
  unfold due
  cases eof : token.isEof with
  | true => simp
  | false =>
    cases own with
    | true => simp
    | false => simp [eof] at passes

theorem due_of_shows (shown : Shows tokens token) :
    due tokensOf markAt token true tokens.tail pending =
      reading tokensOf markAt tokens pending := by
  unfold due
  cases tokens with
  | nil =>
    have ended : token.isEof = true := shown
    rw [ended]
    rfl
  | cons first rest =>
    obtain ⟨rfl, noEnd⟩ := shown
    rw [noEnd]
    rfl

theorem taken_of_shows (shown : Shows tokens token) (solid : ∀ token ∈ tokens, token.Firm pasting) :
    (token.isEof = true ∧ tokens.tail = []) ∨ token.Firm pasting := by
  cases tokens with
  | nil => exact .inl ⟨shown, rfl⟩
  | cons first rest =>
    obtain ⟨rfl, _⟩ := shown
    exact .inr (solid token (List.mem_cons_self ..))

theorem ended_of_taken
    (taken : (token.isEof = true ∧ current = []) ∨ token.Firm pasting) (eof : token.isEof = true) :
    current = [] := by
  rcases taken with ⟨_, empty⟩ | solid
  · exact empty
  · rw [solid.1] at eof
    cases eof

theorem solid_tail (solid : ∀ token ∈ tokens, token.Firm pasting) :
    ∀ token ∈ tokens.tail, token.Firm pasting :=
  fun token member => solid token (List.mem_of_mem_tail member)

theorem standsAt_of_more (solidOps : ∀ op ∈ ops, ∀ token ∈ tokensOf op, token.Firm (Op.Pasting ops))
    (delivers : DeliversAll table loud movers current operands)
    (solid : ∀ token ∈ current, token.Firm (Op.Pasting ops)) (more : current ≠ [])
    (taken : (token.isEof = true ∧ current = []) ∨ token.Firm (Op.Pasting ops))
    (suffix : pending <:+ ops) :
    StandsAt table loud movers tokensOf markAt ops (due tokensOf markAt token own current pending)
      { token, pending, operands } := by
  rcases taken with ⟨_, empty⟩ | solidToken
  · exact absurd empty more
  · refine .inr ⟨current, ?_, solidToken, solid, delivers, .inl more, suffix⟩
    exact due_of_more (fun op member => solidOps op (suffix.subset member))
      (fun pastes => pastes.imp fun op paste => paste.imp_left (suffix.subset ·)) solid more
      solidToken.1

theorem yields_carry (able : movers move)
    (readable : Readable table loud movers playback tokensOf markAt) (token : Token)
    (own : Bool) (pending : List Op) (operands : List TokenStream) (current : List Token)
    (delivers : DeliversAll table loud movers current operands)
    (solid : ∀ token ∈ current, token.Firm (Op.Pasting playback.entry.definition.ops))
    (taken : (token.isEof = true ∧ current = []) ∨
      token.Firm (Op.Pasting playback.entry.definition.ops))
    (suffix : pending <:+ playback.entry.definition.ops) :
    Yields table loud (playback.carry move token own pending operands)
      (StandsAt table loud movers tokensOf markAt playback.entry.definition.ops
        (due tokensOf markAt token own current pending)) := by
  fun_induction Playback.carry move playback token own pending operands generalizing current with
  | case1 own token operands =>
    refine .bind (yields_exhausted able delivers (ended_of_taken taken)) ?_
    rintro ⟨done, operands'⟩ ⟨_, kept⟩
    refine .pure ?_
    rcases taken with ⟨eof, rfl⟩ | solidToken
    · exact .inl ⟨by simp [due, eof, reading], eof⟩
    · refine .inr ⟨current, ?_, solidToken, solid, kept, .inr rfl, suffix⟩
      cases own <;> simp [due, solidToken.1, reading]
  | case2 own token index second operands =>
    cases readable.playable.isPaste_last suffix
  | case3 token own index second op pending operands ihOwn ihOther =>
    have operand : op.isPaste = false := readable.playable.isPaste_after_paste suffix rfl
    have opSuffix := suffix_of_cons suffix
    have restSuffix := suffix_of_cons opSuffix
    have opens := readable.opens move able op (opSuffix.subset (List.mem_cons_self ..)) operand
    have paste := suffix.subset (List.mem_cons_self ..)
    have may := readable.allowed ⟨_, paste, rfl⟩
    have mark := readable.marks index second paste
    refine .bind (yields_exhausted able delivers (ended_of_taken taken)) ?_
    rintro ⟨done, operands'⟩ ⟨rfl, kept⟩
    by_cases more : current = []
    · subst more
      refine .bind (yields_bodyToken mark) ?_
      rintro _ rfl
      have solidOp := readable.solid op (opSuffix.subset (List.mem_cons_self ..))
      generalize chosen : (if own && !token.isEof then some token else none) = left
      have solidLeft : ∀ other ∈ left, other.Firm (Op.Pasting playback.entry.definition.ops) := by
        rintro other rfl
        split at chosen
        next mine =>
          cases chosen
          rcases taken with ⟨eof, _⟩ | solidToken
          · simp [eof] at mine
          · exact solidToken
        next => cases chosen
      have total : reading tokensOf markAt left.toList (.paste index second :: op :: pending) =
          reading tokensOf markAt (joined (markAt index) left.toList (tokensOf op)) pending := rfl
      have solidJoined : ∀ other ∈ joined (markAt index) left.toList (tokensOf op),
          other.Firm (Op.Pasting playback.entry.definition.ops) :=
        solid_joined (by simpa using solidLeft) solidOp
      refine .bind (yields_join may able readable.queues opens solidOp solidLeft)
        fun streams joins => ?_
      by_cases passes : (left.isSome || token.isEof) = true
      · rw [passes]
        refine .bind (joins.readStack able) ?_
        rintro ⟨token', operands''⟩ ⟨shown, rest⟩
        have same : due tokensOf markAt token own [] (.paste index second :: op :: pending) =
            due tokensOf markAt token' true
              (joined (markAt index) left.toList (tokensOf op)).tail pending := by
          rw [due_of_shows shown, ← total]
          exact due_of_left chosen passes
        rw [same]
        exact ihOwn token' operands'' _ rest (solid_tail solidJoined)
          (taken_of_shows shown solidJoined) restSuffix
      · have nothing : left = none ∧ token.isEof = false := by simpa using passes
        rw [nothing.1, nothing.2]
        have same : due tokensOf markAt token own [] (.paste index second :: op :: pending) =
            due tokensOf markAt token false
              (joined (markAt index) left.toList (tokensOf op)) pending := by
          have noOwn : own = false := by
            cases own with
            | false => rfl
            | true => simp [nothing] at chosen
          unfold due
          rw [nothing.2, noOwn, ← total, nothing.1]
          rfl
        rw [same]
        exact ihOther streams _ joins solidJoined (.inr (by
          rcases taken with ⟨eof, _⟩ | solidToken
          · rw [nothing.2] at eof
            cases eof
          · exact solidToken)) restSuffix
    · have notDone : (!current.isEmpty) = true := by simpa using more
      simp only [notDone]
      exact .pure (standsAt_of_more readable.solid kept solid more taken suffix)
  | case4 own token op pending operands notLast notPaste ihOwn ihOther =>
    have operand := Op.isPaste_eq_false notLast notPaste
    have restSuffix := suffix_of_cons suffix
    have opens := readable.opens move able op (suffix.subset (List.mem_cons_self ..)) operand
    have solidOp := readable.solid op (suffix.subset (List.mem_cons_self ..))
    refine .bind (yields_exhausted able delivers (ended_of_taken taken)) ?_
    rintro ⟨done, operands'⟩ ⟨rfl, kept⟩
    by_cases more : current = []
    · subst more
      refine .bind opens fun opened opensTo => ?_
      rcases taken with ⟨eof, _⟩ | solidToken
      · rw [eof]
        refine .bind ((DeliversAll.bottom opensTo).readStack able) ?_
        rintro ⟨token', operands''⟩ ⟨shown, rest⟩
        have total : due tokensOf markAt token own [] (op :: pending) =
            due tokensOf markAt token' true (tokensOf op).tail pending := by
          rw [due_of_shows shown, due, eof, reading_operand _ _ operand]
          rfl
        rw [total]
        exact ihOwn token' operands'' _ rest (solid_tail solidOp)
          (taken_of_shows shown solidOp) restSuffix
      · rw [solidToken.1]
        have total : due tokensOf markAt token own [] (op :: pending) =
            due tokensOf markAt token false (tokensOf op) pending := by
          cases own <;> simp [due, solidToken.1, reading_operand _ _ operand]
        rw [total]
        exact ihOther opened _ (.bottom opensTo) solidOp (.inr solidToken) restSuffix
    · have notDone : (!current.isEmpty) = true := by simpa using more
      simp only [notDone]
      exact .pure (standsAt_of_more readable.solid kept solid more taken suffix)

def movedTo (playback : Playback TokenStream) (found : Found) : Playback TokenStream :=
  { playback with
    lookahead := found.token
    pending := found.pending
    operands := found.operands }

theorem Readable.movedTo (readable : Readable table loud movers playback tokensOf markAt)
    (found : Found) : Readable table loud movers (playback.movedTo found) tokensOf markAt where
  allowed := readable.allowed
  queues := readable.queues
  playable := readable.playable
  opens move able op member operand := by
    have same : (playback.movedTo found).openOp move op = playback.openOp move op := by
      cases op <;> rfl
    exact readable.opens move able op member operand
  solid := readable.solid
  marks := readable.marks

theorem yields_fetch (able : movers move)
    (readable : Readable table loud movers playback tokensOf markAt)
    (opened : playback.closed = false)
    (delivers : DeliversAll table loud movers current playback.operands)
    (solid : ∀ token ∈ current, token.Firm (Op.Pasting playback.entry.definition.ops))
    (suffix : playback.pending <:+ playback.entry.definition.ops) :
    Yields table loud (playback.fetch move) fun fetched => ∃ found, fetched =
      playback.movedTo found ∧
      StandsAt table loud movers tokensOf markAt playback.entry.definition.ops
        (reading tokensOf markAt current playback.pending) found := by
  unfold fetch
  rw [if_neg (by simp [opened])]
  refine .bind (delivers.readStack able) ?_
  rintro ⟨token, operands⟩ ⟨shown, rest⟩
  refine .bind (yields_carry able readable token true playback.pending operands current.tail rest
    (solid_tail solid) (taken_of_shows shown solid) suffix) fun found stands => ?_
  rw [due_of_shows shown] at stands
  exact .pure ⟨found, rfl, stands⟩

/-- **Advancing playback.** What it holds loses its first token. -/
theorem yields_advance (able : movers move)
    (readable : Readable table loud movers playback tokensOf markAt)
    (opened : playback.closed = false)
    (stands : StandsAt table loud movers tokensOf markAt playback.entry.definition.ops tokens
      ⟨playback.lookahead, playback.pending, playback.operands⟩) :
    Yields table loud (playback.advance move) fun advanced =>
      ∃ found, advanced = playback.movedTo found ∧
        StandsAt table loud movers tokensOf markAt playback.entry.definition.ops tokens.tail
          found := by
  unfold advance
  rcases stands with ⟨rfl, eof⟩ | ⟨current, rfl, solid, solidCurrent, delivers, _, suffix⟩
  · have ended : playback.lookahead.isEof = true := eof
    rw [ended]
    exact .pure ⟨⟨playback.lookahead, playback.pending, playback.operands⟩, rfl, .inl ⟨rfl, eof⟩⟩
  · have noEnd : playback.lookahead.isEof = false := solid.1
    rw [noEnd]
    exact yields_fetch able readable opened delivers solidCurrent suffix

/-- **Beginning playback.** It holds the plain reading of the ops of its macro. -/
theorem yields_prime (able : movers move) (around : List Macro.Entry)
    (readable : Readable table loud movers { playback with around } tokensOf markAt)
    (opened : playback.closed = false) (fresh : playback.operands = []) :
    Yields table loud (playback.prime move around) fun primed => ∃ found,
      primed = { playback with around }.movedTo found ∧
        StandsAt table loud movers tokensOf markAt playback.entry.definition.ops
          (reading tokensOf markAt [] playback.entry.definition.ops) found := by
  have playable : playback.entry.definition.Playable := readable.playable
  refine .bind (.trace _) fun _ _ => ?_
  dsimp only
  split
  next empty => exact absurd empty playable.ops_ne_nil
  next op pending whole =>
    have operand := playable.isPaste_first whole
    have suffix : pending <:+ playback.entry.definition.ops := by
      rw [whole]
      exact List.suffix_cons op pending
    refine .bind (readable.opens move able op (by simp [whole]) operand) fun stream delivers => ?_
    have delivers' : DeliversAll table loud movers (tokensOf op) (stream :: playback.operands) := by
      rw [fresh]
      exact .bottom delivers
    have fetched := yields_fetch able
      (readable.movedTo ⟨playback.lookahead, pending, stream :: playback.operands⟩) opened
      delivers' (readable.solid op (by simp [whole])) suffix
    refine fetched.imp ?_
    rintro _ ⟨found, rfl, stands⟩
    refine ⟨found, rfl, ?_⟩
    have same : reading tokensOf markAt [] playback.entry.definition.ops =
        reading tokensOf markAt (tokensOf op) pending := by
      rw [whole, reading_operand _ _ operand]
      rfl
    rw [same]
    exact stands

theorem StandsAt.shows {found : Found}
    (stands : StandsAt table loud movers tokensOf markAt ops tokens found) :
    Shows tokens found.token := by
  rcases stands with ⟨rfl, ended⟩ | ⟨current, rfl, solid, _⟩
  · exact ended
  · exact ⟨rfl, solid.1⟩

theorem yields_read {fuel : Nat} (able : movers (TokenStream.move fuel))
    (readable : Readable table loud movers playback tokensOf markAt)
    (opened : playback.closed = false)
    (stands : StandsAt table loud movers tokensOf markAt playback.entry.definition.ops tokens
      ⟨playback.lookahead, playback.pending, playback.operands⟩) :
    Yields table loud (read (fuel + 1) (.playback playback)) fun taken => Shows tokens taken.1 ∧
      ∃ found, taken.2 = .playback (playback.movedTo found) ∧
        StandsAt table loud movers tokensOf markAt playback.entry.definition.ops tokens.tail
          found := by
  have advances := yields_advance able readable opened stands
  refine .bind (.pure rfl) ?_
  rintro _ rfl
  refine .bind advances.image ?_
  rintro _ ⟨_, rfl, found, rfl, later⟩
  exact .pure ⟨stands.shows, found, rfl, later⟩

/-- The movers that move what is inside a stream with some movers. -/
def Around (movers : Mover → Prop) (move : Mover) : Prop :=
  ∃ fuel, movers (TokenStream.move fuel) ∧ move = TokenStream.move (fuel + 1)

theorem delivers (readable : Readable table loud movers playback tokensOf markAt)
    (opened : playback.closed = false)
    (stands : StandsAt table loud movers tokensOf markAt playback.entry.definition.ops tokens
      ⟨playback.lookahead, playback.pending, playback.operands⟩) :
    Delivers table loud (Around movers) tokens (.playback playback) := by
  refine ⟨fun tokens stream => ∃ playback : Playback TokenStream, stream = .playback playback ∧
    Readable table loud movers playback tokensOf markAt ∧ playback.closed = false ∧
    StandsAt table loud movers tokensOf markAt playback.entry.definition.ops tokens
      ⟨playback.lookahead, playback.pending, playback.operands⟩, ?_,
    playback, rfl, readable, opened, stands⟩
  rintro _ ⟨fuel, able, rfl⟩ tokens _ ⟨playback, rfl, readable, opened, stands⟩
  refine .pure ⟨⟨playback, rfl, readable, opened, stands⟩, stands.shows, ?_⟩
  refine (yields_advance able readable opened stands).image.imp ?_
  rintro _ ⟨_, rfl, found, rfl, later⟩
  exact ⟨playback.movedTo found, rfl, readable.movedTo found, opened, later⟩

end Playing

end Playback

end Preproc
