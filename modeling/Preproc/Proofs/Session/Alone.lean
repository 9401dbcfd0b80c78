import Preproc.Proofs.Session.OwnLine

/-! # One session alone

A session that is poised at a line of its only file goes through raw tokens without a trace: the
tokens, the open conditionals and the context after each step are known.

Main statements: `Session.of_step_conditional`, `Session.of_step_idle` and `Session.of_step_passed`.
-/

namespace Preproc

open TokenStream (move readStack)

namespace Session

/-- The session with one open file, at a spot with tokens that are left and open conditionals. -/
def poise (session : Session) (spot : Spot) (tokens : List Token) (frames : List Conditional) :
    Session :=
  { session with files := [spot.input tokens frames] }

theorem eq_poise {session : Session} {spot : Spot} {tokens : List Token}
    {frames : List Conditional} (files : session.files = [spot.input tokens frames]) :
    session = session.poise spot tokens frames := by
  obtain ⟨options, includes, files⟩ := session
  cases files
  rfl

variable {session : Session} {spot : Spot} {context : Context} {token newline name : Token}
  {operands rest : List Token} {frames : List Conditional} (fuel : Nat)

section Raw

/-- A token that is shown is left behind, and the file is at the spot with the tokens that its
sources hold. -/
theorem moveFile_of_reads {below : List InputFile} {shown : Token} {sources : List TokenStream}
    {lastLine : Int} (top : session.files = ⟨spot.path, .expansion { spot.expansion [] with
      lookahead := shown, sources }, frames⟩ :: below)
    (goesOn : shown.isEof = false) (ends : Terminated rest)
    (reads : readStack (move (fuel + 1)) sources =
      readStack (move (fuel + 1)) [.scanner (.holding spot.file spot.map lastLine rest)]) :
    moveFile (fuel + 2) .advance session context =
      .ok ((), { session with files := spot.input rest frames :: below }) context := by
  have moves : move (fuel + 2) .advance (.expansion { spot.expansion [] with
      lookahead := shown, sources }) = pure (.expansion (spot.expansion rest)) := by
    unfold move TokenStream.moveWith
    dsimp only
    unfold Expansion.advance
    dsimp only
    rw [goesOn, if_neg (by simp), reads, TokenStream.readStack_holding fuel ends]
    rfl
  rw [moveFile_of_files top]
  exact Engine.bind_ok_iff.mpr ⟨_, _, congrFun moves context, rfl⟩

theorem moveFile_of_input {below : List InputFile}
    (top : session.files = spot.input (token :: rest) frames :: below)
    (goesOn : token.isEof = false) (ends : Terminated rest) :
    moveFile (fuel + 2) .advance session context =
      .ok ((), { session with files := spot.input rest frames :: below }) context :=
  moveFile_of_reads fuel top (by simp [goesOn]) ends
    (congrArg (readStack _) (spot.sources_expansion goesOn rest))

theorem moveFile_poise (goesOn : token.isEof = false) (ends : Terminated rest) :
    moveFile (fuel + 2) .advance (session.poise spot (token :: rest) frames) context =
      .ok ((), session.poise spot rest frames) context :=
  moveFile_of_input fuel rfl goesOn ends

theorem two_le_of_moveFile {found : Unit × Session} {next : Context}
    (goesOn : token.isEof = false)
    (ran : moveFile fuel .advance (session.poise spot (token :: rest) frames) context =
      .ok found next) : 2 ≤ fuel := by
  have lookahead : (spot.expansion (token :: rest)).lookahead.isEof = false := by
    simp [Spot.expansion, goesOn]
  have top : (session.poise spot (token :: rest) frames).files =
      [spot.input (token :: rest) frames] := rfl
  rw [moveFile_of_files top] at ran
  obtain ⟨stream, read, moved, _⟩ := Engine.bind_ok_iff.mp ran
  rcases fuel with - | - | fuel
  · cases moved
  · obtain ⟨_, _, moved, _⟩ := Engine.bind_ok_iff.mp
      (show ((spot.expansion (token :: rest)).advance (move 0) >>= fun next =>
        pure (TokenStream.expansion next)) context = .ok stream read from moved)
    unfold Expansion.advance at moved
    rw [lookahead] at moved
    cases moved
  · exact Nat.le_add_left _ _

theorem firm_poise (kept : Context → Prop) : Footing.Firm (fun _ => True) kept fuel
    fun frames tokens read => read = session.poise spot tokens frames where
  bounded _ _ := trivial
  shows := by
    rintro _ _ _ _ rfl
    exact ⟨spot.map, rfl⟩
  file := by
    rintro _ _ _ rfl
    exact ⟨_, _, rfl, rfl, fun _ => rfl⟩
  moves {frames token rest read} stands goesOn ends := by
    cases stands
    refine ⟨fun {context found next} start ran => ?_, fun _ _ => trivial⟩
    obtain ⟨fuel, rfl⟩ := Nat.exists_eq_add_of_le' (two_le_of_moveFile fuel goesOn ran)
    rw [moveFile_poise fuel goesOn (ends.tail goesOn)] at ran
    cases ran
    exact ⟨start, rfl⟩

end Raw

section Steps

variable {tokens : List Token} (unstopped : stops session context = false)

include unstopped

theorem step_poise : step fuel (session.poise spot tokens frames) context =
    stepIn fuel (spot.input tokens frames) (session.poise spot tokens frames) context :=
  step_of_files fuel rfl unstopped

theorem step_poise_directive {mark : Token} (marks : mark.kind = .directive) :
    step fuel (session.poise spot (mark :: rest) frames) context =
      (do handleDirective fuel; return none : SessionM (Option Token))
        (session.poise spot (mark :: rest) frames) context := by
  have opens : (spot.input (mark :: rest) frames).stream.head.kind = .directive :=
    (kind_presume spot.map mark).trans marks
  rw [step_poise fuel unstopped, stepIn_of_directive fuel opens]

theorem step_poise_passed (plain : token.kind ≠ .directive) (goesOn : token.isEof = false)
    (passed : token.kind = .newline ∨ Conditional.isSkipping frames = true) :
    step fuel (session.poise spot (token :: rest) frames) context =
      (do moveFile fuel .advance; return none : SessionM (Option Token))
        (session.poise spot (token :: rest) frames) context := by
  have shows : (spot.input (token :: rest) frames).stream.head = presume spot.map token := rfl
  have passes : ((spot.input (token :: rest) frames).stream.head.kind == .newline ||
      (spot.input (token :: rest) frames).isSkipping) = true := by
    rw [shows, kind_presume]
    simpa [InputFile.isSkipping, Spot.input] using passed
  rw [step_poise fuel unstopped,
    stepIn_of_plain fuel (by rw [shows, isEof_presume, goesOn])
      (by rwa [shows, kind_presume]) passes]
  rfl

theorem step_newline (kind : newline.kind = .newline) (ends : Terminated rest) :
    step (fuel + 2) (session.poise spot (newline :: rest) frames) context =
      .ok (none, session.poise spot rest frames) context := by
  have plain : newline.kind ≠ .directive := by
    rw [kind]
    decide
  rw [step_poise_passed _ unstopped plain (isEof_of_newline kind) (.inl kind)]
  exact bind_ok_iff.mpr ⟨(), _, _, moveFile_poise fuel (isEof_of_newline kind) ends, rfl⟩

theorem two_le_of_step {given : Option Token} {after : Session} {next : Context}
    (goesOn : token.isEof = false) (passed : token.kind = .directive ∨ token.kind = .newline ∨
      Conditional.isSkipping frames = true)
    (ran : step fuel (session.poise spot (token :: rest) frames) context =
      .ok (given, after) next) : 2 ≤ fuel := by
  by_cases marks : token.kind = .directive
  · rw [step_poise_directive fuel unstopped marks] at ran
    obtain ⟨_, _, _, ran, _⟩ := bind_ok_iff.mp ran
    obtain ⟨_, _, _, ran, _⟩ := bind_ok_iff.mp ran
    obtain ⟨head, _, _, looked, ran⟩ := bind_ok_iff.mp ran
    cases looked
    obtain ⟨_, _, _, moved, _⟩ := bind_ok_iff.mp ran
    exact two_le_of_moveFile fuel goesOn moved
  · rw [step_poise_passed fuel unstopped marks goesOn (passed.resolve_left marks)] at ran
    obtain ⟨_, _, _, moved, _⟩ := bind_ok_iff.mp ran
    exact two_le_of_moveFile fuel goesOn moved

variable {given : Option Token} {after : Session} {next : Context}

/-- **A step past a token** that is not given does nothing else. -/
theorem of_step_passed (plain : token.kind ≠ .directive) (goesOn : token.isEof = false)
    (passed : token.kind = .newline ∨ Conditional.isSkipping frames = true) (ends : Terminated rest)
    (ran : step fuel (session.poise spot (token :: rest) frames) context =
      .ok (given, after) next) :
    given = none ∧ after = session.poise spot rest frames ∧ next = context := by
  rw [step_poise_passed fuel unstopped plain goesOn passed] at ran
  obtain ⟨_, _, _, moved, rest⟩ := bind_ok_iff.mp ran
  cases rest
  obtain ⟨same, stands⟩ := ((firm_poise fuel (· = context)).moves rfl goesOn
    (ends.cons goesOn)).done rfl moved
  exact ⟨rfl, stands, same⟩

variable (inside : ∀ token ∈ operands, token.endsLine = false) (kind : newline.kind = .newline)
  (ends : Terminated rest) {mark : Token} (marks : mark.kind = .directive)

omit unstopped

/-- The line that a newline ends. -/
def Remainder.ofNewline (newline : Token) (rest : List Token) (kind : newline.kind = .newline)
    (ends : Terminated rest) : Remainder where
  ending := newline
  rest
  fits := fun _ => True
  ends := endsLine_of_newline kind
  terminated := ends.cons (isEof_of_newline kind)

include inside kind ends marks

variable {directive : Directive}

/-- A line with a directive of a conditional, in contexts of whose tables or of which nothing is
known but what the directive leaves alone. -/
theorem takes_conditionalLine {kept : Context → Prop}
    (names : name.directive? = some directive) (counts : directive.ofConditional = true)
    (may : ¬ Silent directive frames → OfTable kept) :
    Takes (fun _ => True) kept
      (session.poise spot (mark :: name :: operands ++ newline :: rest) frames)
      (handleDirective fuel) (fun _ => kept) fun _ after =>
        ∃ map frames', Turns (presume map name) directive frames frames' ∧
          after = session.poise spot rest frames' := by
  have firm := @firm_poise session spot fuel kept
  refine takes_handledLine firm (Remainder.ofNewline newline rest kind ends) names
    (fun _ => counts) rfl (by simp [Token.isEof, marks]) inside fun map read stands => ?_
  refine .bind (takes_conditional firm ⟨operands, ?_, stands⟩ counts may) ?_
  · exact fun token member => ⟨inside token member, trivial⟩
  rintro ending last ⟨left, silent, frames', turns, inside⟩
  have calm (checked : ending = .checked) : Calm kept := by
    refine (may fun quiet => ?_).calm
    rw [silent quiet] at checked
    cases checked
  apply (takes_endLine firm left calm inside).values
  rintro _ _ (⟨_, rfl⟩ | ⟨other, _⟩)
  · exact ⟨map, frames', turns, rfl⟩
  · exact absurd kind other

include unstopped

/-- **A step over a line of a conditional** turns the open conditionals and leaves the table. It is
quiet if its directive is silent. -/
theorem of_step_conditional (names : name.directive? = some directive)
    (counts : directive.ofConditional = true)
    (ran : step fuel (session.poise spot (mark :: name :: operands ++ newline :: rest) frames)
      context = .ok (given, after) next) :
    given = none ∧ next.table = context.table ∧
      (Silent directive frames → next.sink = context.sink) ∧
      ∃ map frames', Turns (presume map name) directive frames frames' ∧
        after = session.poise spot rest frames' := by
  rw [List.cons_append, List.cons_append, step_poise_directive fuel unstopped marks] at ran
  obtain ⟨_, _, _, ran, rest⟩ := bind_ok_iff.mp ran
  cases rest
  have ofTable : OfTable fun next => next.table = context.table :=
    fun middle next same kept => kept.trans same
  obtain ⟨table, turned⟩ := (takes_conditionalLine fuel inside kind ends marks names counts
    fun _ => ofTable).done rfl ran
  refine ⟨rfl, table, fun silent => ?_, turned⟩
  have same := ((takes_conditionalLine fuel inside kind ends marks names counts
    fun loud => absurd silent loud : Takes _ (· = context) _ _ _ _).done rfl ran).1
  rw [same]

/-- Where lines are skipped, a step at a line that names no directive of a conditional leaves the
session at the end of the line. -/
theorem of_step_idle (skipping : Conditional.isSkipping frames = true)
    (uncounted : ∀ directive ∈ lineDirective operands, directive.ofConditional = false)
    (ran : step fuel (session.poise spot (mark :: operands ++ newline :: rest) frames)
      context = .ok (given, after) next) :
    given = none ∧ after = session.poise spot (newline :: rest) frames ∧ next = context := by
  rw [List.cons_append, step_poise_directive fuel unstopped marks] at ran
  obtain ⟨_, _, _, ran, rest⟩ := bind_ok_iff.mp ran
  cases rest
  obtain ⟨same, stands⟩ := (takes_idleLine (firm_poise fuel (· = context))
    (Remainder.ofNewline newline rest kind ends) (by simp [skipping]) rfl
      (by simp [Token.isEof, marks])
    (fun token member => ⟨inside token member, trivial⟩)
    fun directive among => ⟨skipping, uncounted directive among⟩).done rfl ran
  exact ⟨rfl, stands, same⟩

end Steps

end Session

end Preproc
