import Mathlib.Data.List.TakeWhile
import Preproc.Proofs.Expansion.Identity

/-! # Expansions that hand tokens on

A stack supplies tokens up to an end, and nothing is said of what comes after it: an end among the
tokens of the bottom stream is an end. An expansion whose tokens name no macro hands on what its
stack supplies.

Main statements: `Expansion.Hands.delivers` and `Expansion.drain_of_settle`.
-/

namespace Preproc

open TokenStream (move Mover readStack Shows Delivers AtLeast Fuelled)
open Engine (Yields yields_iff)

variable {table : MacroTable} {loud : Prop}

def beforeEnd (tokens : List Token) : List Token :=
  tokens.takeWhile (!·.isEof)

theorem beforeEnd_of_goesOn {tokens : List Token} (goesOn : ∀ token ∈ tokens, token.isEof = false) :
    beforeEnd tokens = tokens :=
  List.takeWhile_eq_self_iff.mpr fun token member => by simp [goesOn token member]

theorem MacroTable.entryFor?_of_isPunctuator (table : MacroTable) {token : Token} {text : String}
    (same : token.isPunctuator text = true) : table.entryFor? token = none := by
  simp only [Token.isPunctuator, Bool.and_eq_true, beq_iff_eq] at same
  simp [entryFor?, Token.isIdentifier, same.1]

namespace TokenStream

variable {movers : Mover → Prop} {move : Mover} {tokens : List Token} {streams : List TokenStream}

theorem Shows.entryFor? {token : Token} (shown : Shows tokens token)
    (unnamed : ∀ token ∈ tokens, table.entryFor? token = none) : table.entryFor? token = none := by
  cases tokens with
  | nil =>
    have ended : token.isEof = true := shown
    have kind : token.kind = .eof := by simpa [Token.isEof] using ended
    simp [MacroTable.entryFor?, Token.isIdentifier, kind]
  | cons first rest =>
    rw [shown.1]
    exact unnamed first (List.mem_cons_self ..)

/-- A stack supplies a list of tokens and then an end, whichever of some movers reads it. -/
def Supplies (table : MacroTable) (loud : Prop) (movers : Mover → Prop) :
    List Token → List TokenStream → Prop
  | [], streams => ∀ move, movers move → Yields table loud (readStack move streams)
    (·.1.isEof = true)
  | token :: tokens, streams => ∀ move, movers move → Yields table loud (readStack move streams)
      fun found => found.1 = token ∧ token.isEof = false ∧ Supplies table loud movers tokens found.2

theorem supplies_iff : Supplies table loud movers tokens streams ↔ ∀ move, movers move →
    Yields table loud (readStack move streams) fun found => Shows tokens found.1 ∧
      (found.1.isEof = false → Supplies table loud movers tokens.tail found.2) := by
  cases tokens with
  | nil =>
    refine forall₂_congr fun move able => ⟨fun yields => yields.imp ?_, fun yields => yields.imp ?_⟩
    · exact fun found ended => ⟨ended, fun goesOn => by simp_all⟩
    · exact fun found holds => holds.1
  | cons token tokens =>
    refine forall₂_congr fun move able => ⟨fun yields => yields.imp ?_, fun yields => yields.imp ?_⟩
    · exact fun found holds => ⟨⟨holds.1, holds.2.1⟩, fun _ => holds.2.2⟩
    · exact fun found holds => ⟨holds.1.1, holds.1.2, holds.2 (holds.1.1 ▸ holds.1.2)⟩

theorem Supplies.fewer {fewer : Mover → Prop} (supplies : Supplies table loud movers tokens streams)
    (among : ∀ move, fewer move → movers move) : Supplies table loud fewer tokens streams := by
  induction tokens generalizing streams with
  | nil => exact fun move able => supplies move (among move able)
  | cons token tokens ih =>
    exact fun move able => (supplies move (among move able)).imp fun _ holds =>
      ⟨holds.1, holds.2.1, ih holds.2.2⟩

theorem supplies_queue (waiting : List Token) {finish : Token} (ends : finish.isEof = true)
    (busy : List Macro.Entry) :
    Supplies table loud Fuelled (beforeEnd waiting) [.queue ⟨waiting, finish, busy⟩] := by
  induction waiting with
  | nil =>
    rintro _ ⟨fuel, rfl⟩
    exact .pure ends
  | cons first waiting ih =>
    cases ended : first.isEof with
    | true =>
      have stops : beforeEnd (first :: waiting) = [] := by simp [beforeEnd, ended]
      rw [stops]
      rintro _ ⟨fuel, rfl⟩
      exact .pure ended
    | false =>
      have goesOn : beforeEnd (first :: waiting) = first :: beforeEnd waiting := by
        simp [beforeEnd, ended]
      rw [goesOn]
      rintro _ ⟨fuel, rfl⟩
      exact .pure ⟨rfl, ended, ih⟩

theorem Supplies.push {stream : TokenStream} {below : List Token}
    (supplies : Supplies table loud movers below streams) (present : streams ≠ [])
    (delivers : Delivers table loud movers tokens stream) :
    Supplies table loud movers (tokens ++ below) (stream :: streams) := by
  obtain ⟨second, others, rfl⟩ := List.exists_cons_of_ne_nil present
  induction tokens generalizing stream with
  | nil =>
    refine supplies_iff.mpr fun move able => .bind (delivers.readWith able) ?_
    rintro ⟨token, top⟩ ⟨shown, _⟩
    have ended : token.isEof = true := shown
    dsimp only
    rw [if_pos ended]
    exact supplies_iff.mp supplies move able
  | cons first tokens ih =>
    refine fun move able => .bind (delivers.readWith able) ?_
    rintro ⟨token, top⟩ ⟨⟨rfl, goesOn⟩, rest⟩
    dsimp only at goesOn ⊢
    rw [if_neg (by simp [goesOn])]
    exact .pure ⟨rfl, goesOn, ih rest⟩

end TokenStream

open TokenStream (Supplies)

namespace Expansion

variable {expansion : Expansion TokenStream} {tokens : List Token}

theorem rests_of_unnamed (unnamed : table.entryFor? expansion.lookahead = none) :
    expansion.Rests table := by
  by_cases isName : expansion.lookahead.isIdentifier = true
  · exact .unnamed (by rwa [MacroTable.entryFor?, if_pos isName] at unnamed)
  · exact .passed (by simp [isName])

/-- An expansion that hands tokens on: its next token stays, and those after it name no macro. -/
structure Hands (table : MacroTable) (loud : Prop) (enough : Nat) (tokens : List Token)
    (expansion : Expansion TokenStream) : Prop where
  rests : expansion.Rests table
  shown : Shows tokens expansion.lookahead
  supplies : expansion.lookahead.isEof = false →
    Supplies table loud (AtLeast enough) tokens.tail expansion.sources
  unnamed : ∀ token ∈ tokens.tail, table.entryFor? token = none

variable {enough : Nat}

theorem hands_of_supplies {move : Mover} {streams : List TokenStream}
    (supplies : Supplies table loud (AtLeast enough) tokens streams)
    (unnamed : ∀ token ∈ tokens, table.entryFor? token = none) (able : AtLeast enough move) :
    Yields table loud (readStack move streams) fun found => ∀ expansion : Expansion TokenStream,
      expansion.lookahead = found.1 → expansion.sources = found.2 →
        Hands table loud enough tokens expansion := by
  apply (TokenStream.supplies_iff.mp supplies _ able).imp
  rintro ⟨_, _⟩ ⟨shown, rest⟩ expansion rfl rfl
  exact ⟨rests_of_unnamed (shown.entryFor? unnamed), shown, rest, fun token member =>
    unnamed token (List.mem_of_mem_tail member)⟩

theorem Hands.advance {move : Mover} (hands : Hands table loud enough tokens expansion)
    (able : AtLeast enough move) :
    Yields table loud (expansion.advance move) (Hands table loud enough tokens.tail) := by
  unfold Expansion.advance
  split
  next ended =>
    obtain rfl := hands.shown.isEof_iff.mp ended
    exact .pure hands
  next goesOn =>
    refine .bind (hands_of_supplies (hands.supplies (by simpa using goesOn)) hands.unnamed able) ?_
    exact fun found hands => .pure (hands _ rfl rfl)

/-- **An expansion that hands out tokens delivers them**, given enough fuel. -/
theorem Hands.delivers (long : 2 ≤ enough) (hands : Hands table loud enough tokens expansion) :
    Delivers table loud (AtLeast (enough + 1)) tokens (.expansion expansion) := by
  refine ⟨fun tokens stream => ∃ expansion, stream = .expansion expansion ∧
    Hands table loud enough tokens expansion, ?_, expansion, rfl, hands⟩
  rintro _ ⟨_, more, rfl⟩ tokens _ ⟨expansion, rfl, hands⟩
  obtain ⟨fuel, rfl⟩ := Nat.exists_eq_add_of_le' (Nat.le_trans (Nat.succ_le_succ long) more)
  apply (hands.rests.settle (fuel + 1) fuel).image.imp
  rintro _ ⟨expansion, rfl, rfl⟩
  exact ⟨⟨expansion, rfl, hands⟩, hands.shown, (hands.advance ⟨_, by omega, rfl⟩).image⟩

theorem delivers_opened_of_unnamed (inherited : Option Token) (queue : TokenQueue)
    (goesOn : ∀ token ∈ queue.tokens, token.isEof = false) (ends : queue.finish.isEof = true)
    (unnamed : ∀ token ∈ queue.tokens, table.entryFor? token = none) :
    Delivers table loud (AtLeast 3) queue.tokens (.expansion (opened inherited queue)) := by
  have shown := TokenStream.shows_queue goesOn ends
  have rest : Supplies table loud (AtLeast 2) queue.tokens.tail
    (opened inherited queue).sources := by
    rw [← beforeEnd_of_goesOn fun token member => goesOn token (List.mem_of_mem_tail member)]
    exact (TokenStream.supplies_queue _ ends _).fewer fun _ => AtLeast.fuelled
  exact Hands.delivers (Nat.le_refl 2) ⟨rests_of_unnamed (shown.entryFor? unnamed), shown,
    fun _ => rest, fun token member => unnamed token (List.mem_of_mem_tail member)⟩

/-- Once an expansion has settled to one that hands out tokens, draining it gives these tokens and
reports nothing more. -/
theorem drain_of_settle {settled : Expansion TokenStream} {fuel bound : Nat}
    {context middle : Context}
    (settles : expansion.settle (move (fuel + 1)) (fuel + 1) context = .ok settled middle)
    (same : middle.table = table) (hands : Hands table False enough tokens settled)
    (long : 2 ≤ enough) (able : enough ≤ fuel + 1) (bounds : tokens.length ≤ bound) :
    ∃ last next, (TokenStream.expansion expansion).drain (fuel + 2) (bound + 1) context =
      .ok (tokens, last) next ∧ next.sink = middle.sink ∧ next.table = table := by
  have drains : Yields table False
      (TokenStream.drainSettled (fuel + 2) bound (.expansion settled)) (·.1 = tokens) := by
    refine .bind (hands.advance ⟨_, able, rfl⟩).image ?_
    rintro _ ⟨advanced, rfl, rest⟩
    change Yields table False (if settled.lookahead.isEof = true then _ else _) _
    have shown := hands.shown
    cases tokens with
    | nil =>
      have ended : settled.lookahead.isEof = true := shown
      rw [if_pos ended]
      exact .pure rfl
    | cons first tokens =>
      rw [if_neg (by simp [shown.1, shown.2]), ← shown.1]
      have later := (rest.delivers long).drain ⟨_, Nat.succ_le_succ able, rfl⟩ bounds
      refine .bind later ?_
      rintro ⟨drained, last⟩ rfl
      exact .pure rfl
  obtain ⟨⟨drained, last⟩, next, ran, kept, quiet, rfl⟩ := yields_iff.mp drains middle same
  refine ⟨last, next, ?_, by simpa using quiet, kept⟩
  rw [TokenStream.drain_succ_eq]
  have moves : move (fuel + 2) .settle (.expansion expansion) context =
      .ok (.expansion settled) middle :=
    Engine.bind_ok_iff.mpr ⟨settled, middle, settles, rfl⟩
  exact Engine.bind_ok_iff.mpr ⟨_, _, moves, ran⟩

theorem settle_of_again {begun : Expansion TokenStream} {fuel bound : Nat}
    {context middle : Context} (attempts : expansion.attempt (move (fuel + 1)) (bound + 2) context =
      .ok (.again begun) middle)
    (same : middle.table = table) (hands : Hands table False enough tokens begun) :
    ∃ next, expansion.settle (move (fuel + 1)) (bound + 3) context = .ok begun next ∧
      next.sink = middle.sink ∧ next.table = table := by
  have stays : Yields table False _ (· = begun) := hands.rests.settle fuel bound
  obtain ⟨_, next, ran, kept, quiet, rfl⟩ := yields_iff.mp stays middle same
  exact ⟨next, Engine.bind_ok_iff.mpr ⟨_, _, attempts, ran⟩, by simpa using quiet, kept⟩

end Expansion

end Preproc
