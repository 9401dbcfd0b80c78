import Preproc.Proofs.Expansion.Abreast
import Preproc.Proofs.Session.Lane

/-! # Sessions with different lines to follow

Two sessions read one file each, and are the same apart from what comes after a line of these files
and from conditionals around those that were opened since. They go through the line together,
whether it is a directive line or not.

Main statements: `Session.linked_proceed_line` and `Session.linked_proceed_directive`.
-/

namespace Preproc

open TokenStream (move)

open Engine (Echoes)
open Regime (upcoming)
open Session (Pairing Linked)
open Expansion (Abreast Going Flush Turned)

/-- A relation between the open files of two sessions. -/
abbrev FileRelation := List InputFile → List InputFile → Prop

/-- One file is open on each side, under one path. -/
def OneFile (streams : Expansion TokenStream → Expansion TokenStream → Prop)
    (framing : List Conditional → List Conditional → Prop) : FileRelation := fun files files' =>
  ∃ path expansion expansion' frames frames', streams expansion expansion' ∧
    framing frames frames' ∧
    files = [⟨path, .expansion expansion, frames⟩] ∧ files' =
      [⟨path, .expansion expansion', frames'⟩]

theorem OneFile.imp {streams streams' : Expansion TokenStream → Expansion TokenStream → Prop}
    {framing framing' : List Conditional → List Conditional → Prop} {files files' : List InputFile}
    (one : OneFile streams framing files files')
    (weaker : ∀ {expansion expansion'}, streams expansion expansion' →
      streams' expansion expansion')
    (framed : ∀ {frames frames'}, framing frames frames' → framing' frames frames') :
    OneFile streams' framing' files files' := by
  obtain ⟨path, expansion, expansion', frames, frames', related, framing, opened, opened'⟩ := one
  exact ⟨path, expansion, expansion', frames, frames', weaker related, framed framing, opened,
    opened'⟩

/-- One file is open on each side, and is read from its own tokens with nothing begun. -/
abbrev Poised (framing : List Conditional → List Conditional → Prop) (tokens tokens' : List Token) :
    FileRelation :=
  OneFile (Turned tokens tokens') framing

/-- One more file is open on both sides. -/
def Above (files : FileRelation) : FileRelation := fun above above' =>
  ∃ file others others', files others others' ∧ above = file :: others ∧ above' = file :: others'

/-- Inside a line or behind it. -/
def Onward (rest rest' : List Token) : Expansion TokenStream → Expansion TokenStream → Prop :=
  fun expansion expansion' =>
    expansion.Abreast (Going rest rest') expansion' ∨ Turned rest rest' expansion expansion'

/-- Behind a directive line, where a file may have been entered. -/
def Followed (rest rest' : List Token) (framing : List Conditional → List Conditional → Prop) :
    FileRelation := fun files files' =>
  OneFile (Onward rest rest') framing files files' ∨
    Above (OneFile (Onward rest rest') framing) files files'

namespace Session

/-- Sessions that are the same apart from their files. -/
def Beside (files : FileRelation) : Pairing := fun session session' =>
  files session.files session'.files ∧ session' = { session with files := session'.files }

variable {fits : MacroTable → Prop} {fuel : Nat}
  {streams streams' : Expansion TokenStream → Expansion TokenStream → Prop}
  {framing : List Conditional → List Conditional → Prop} {session session' : Session}

theorem upcoming_of_oneFile
    (same : ∀ {expansion expansion'}, streams expansion expansion' →
      expansion'.lookahead = expansion.lookahead)
    (beside : Beside (OneFile streams framing) session session') :
    upcoming session' = upcoming session := by
  obtain ⟨⟨path, expansion, expansion', frames, frames', related, _, files, files'⟩, _⟩ := beside
  unfold upcoming
  rw [files, files']
  exact same related

theorem Beside.showing (beside : Beside (OneFile streams framing) session session') :
    Beside (OneFile (fun expansion expansion' => streams expansion expansion' ∧
      expansion.lookahead = upcoming session) framing) session session' := by
  obtain ⟨⟨path, expansion, expansion', frames, frames', related, framed, files, files'⟩, same⟩ :=
    beside
  refine ⟨⟨path, expansion, expansion', frames, frames', ⟨related, ?_⟩, framed, files, files'⟩,
    same⟩
  unfold upcoming
  rw [files]
  rfl

theorem linked_moveFile_one {kind : TokenStream.Move}
    (moves : ∀ {expansion expansion'}, streams expansion expansion' →
      Echoes (.of fits) (move fuel kind (.expansion expansion))
        (move fuel kind (.expansion expansion')) fun stream stream' =>
          ∃ next next', streams' next next' ∧ stream = .expansion next ∧ stream' =
            .expansion next') :
    Linked (.of fits) (Beside (OneFile streams framing)) (moveFile fuel kind)
      fun _ => Beside (OneFile streams' framing) := by
  refine .of_echoes ?_
  rintro session session' ⟨⟨path, expansion, expansion', frames, frames', related, framed, files,
    files'⟩, same⟩
  rw [moveFile_of_files files, moveFile_of_files files']
  refine .bind (moves related) ?_
  rintro _ _ ⟨next, next', related, rfl, rfl⟩
  refine .pure ⟨rfl, ⟨path, next, next', frames, frames', related, framed, rfl, rfl⟩, ?_⟩
  rw [same]

theorem linked_advance
    (moves : ∀ {fuel expansion expansion'}, streams expansion expansion' →
      Echoes (.of fits) (expansion.advance (move fuel))
        (expansion'.advance (move fuel)) streams') :
    Linked (.of fits) (Beside (OneFile streams framing)) (moveFile fuel .advance)
      fun _ => Beside (OneFile streams' framing) := by
  refine linked_moveFile_one fun related => ?_
  cases fuel with
  | zero => exact .throw _
  | succ fuel =>
    exact .bind (moves related) fun next next' related => .pure ⟨next, next', related, rfl, rfl⟩

theorem linked_settle
    (moves : ∀ {fuel expansion expansion'}, streams expansion expansion' →
      Echoes (.of fits) (expansion.settle (move fuel) fuel)
        (expansion'.settle (move fuel) fuel) streams') :
    Linked (.of fits) (Beside (OneFile streams framing)) (moveFile fuel .settle)
      fun _ => Beside (OneFile streams' framing) := by
  refine linked_moveFile_one fun related => ?_
  cases fuel with
  | zero => exact .throw _
  | succ fuel =>
    exact .bind (moves related) fun next next' related => .pure ⟨next, next', related, rfl, rfl⟩

end Session

open Session (Beside)

/-- The lane of directive lines that are read from the scanners alone. -/
def Lane.sides (rest rest' : List Token) (tails : Option (List Conditional × List Conditional)) :
    Lane where
  within depth := Beside (OneFile (Abreast (Flush rest rest')) (Framing tails depth))
  behind depth := Beside (OneFile (Turned rest rest') (Framing tails depth))
  tails

namespace Session

variable {rest rest' : List Token} {tails : Option (List Conditional × List Conditional)}
  (ends : Terminated rest) (ends' : Terminated rest')
  (shown : ∀ {tail tail'}, tails = some (tail, tail') →
    Conditional.isSkipping tail' = Conditional.isSkipping tail)
include ends ends' shown

theorem lawful_sides : (Lane.sides rest rest' tails).Lawful .any where
  head := upcoming_of_oneFile Abreast.lookahead_eq
  advance := by
    intro depth token goesOn fuel
    have moves : Linked .any (Beside (OneFile (fun expansion expansion' =>
        expansion.Abreast (Flush rest rest') expansion' ∧ expansion.lookahead = token)
        (Framing tails depth))) (moveFile fuel .advance)
        fun _ => (Lane.sides rest rest' tails).within depth :=
      linked_advance fun here => here.1.advance_flush ends ends' (here.2 ▸ goesOn)
    exact moves.pre fun _ _ here => here.2 ▸ here.1.showing
  turn := by
    intro depth token newline fuel
    have moves : Linked .any (Beside (OneFile (fun expansion expansion' =>
        expansion.Abreast (Flush rest rest') expansion' ∧ expansion.lookahead = token)
        (Framing tails depth))) (moveFile fuel .advance)
        fun _ => (Lane.sides rest rest' tails).behind depth := by
      refine linked_advance fun here => ?_
      have kind := here.2 ▸ newline
      obtain ⟨past, _⟩ := here.1.going.past (by simp [Token.endsLine, kind])
      exact Abreast.turn ends ends' { here.1 with going := past } (by simp [Token.isEof, kind])
    exact moves.pre fun _ _ here => here.2 ▸ here.1.showing
  framed := by
    rintro depth session session' ⟨⟨_, _, _, _, _, _, framed, files, files'⟩, _⟩
    unfold topFrames
    rw [files, files']
    exact framed
  shown := shown
  reframe := by
    rintro depth depth' ⟨options, includes, _⟩ session' change
      ⟨⟨path, expansion, expansion', frames, frames', abreast, _, rfl, files'⟩, same⟩ framed
    rw [files'] at same
    subst same
    exact ⟨⟨path, expansion, expansion', _, _, abreast, framed, rfl, rfl⟩, rfl⟩
  renumber := by
    rintro depth ⟨options, includes, _⟩ session' line file
      ⟨⟨path, expansion, expansion', frames, frames', abreast, framed, rfl, files'⟩, same⟩ ended
    rw [files'] at same
    subst same
    obtain ⟨⟨scannerFile, map, lastLine, single, single'⟩, newline⟩ := abreast.going.past ended
    have renumbered : Expansion.Abreast (Flush rest rest')
        { expansion with sources := TokenStream.renumberBottom line file expansion.sources }
        { expansion' with sources := TokenStream.renumberBottom line file expansion'.sources } := by
      rw [single, single']
      refine ⟨.ended ⟨scannerFile, _, lastLine, rfl, rfl⟩ newline, ?_, abreast.inherited⟩
      rw [abreast.same]
    exact ⟨⟨path, _, _, frames, frames', renumbered, framed, rfl, rfl⟩, rfl⟩

theorem open_sides : (Lane.sides rest rest' tails).Open .any fun depth =>
    Beside (Followed rest rest' (Framing tails depth)) := by
  have onward {depth : Nat} {session session' : Session}
      (closed : (Lane.sides rest rest' tails).Closed depth session session') :
      Beside (OneFile (Onward rest rest') (Framing tails depth)) session session' := by
    rcases closed with ⟨within, ended⟩ | ⟨behind, same⟩
    · obtain ⟨shows, same⟩ := within.showing
      refine ⟨shows.imp (fun here => ?_) id, same⟩
      obtain ⟨past, newline⟩ := here.1.going.past (here.2 ▸ ended)
      exact .inl { here.1 with going := .ended past newline }
    · exact ⟨behind.imp .inr id, same⟩
  exact
  { lawful_sides ends ends' shown with
    closed := fun closed => ⟨.inl (onward closed).1, (onward closed).2⟩
    once := by
      rintro depth ⟨options, includes, _⟩ session'
        ⟨⟨path, expansion, expansion', frames, frames', abreast, framed, rfl, files'⟩, same⟩
      rw [files'] at same
      subst same
      exact ⟨⟨path, expansion, expansion', frames, frames', abreast, framed, rfl, rfl⟩, rfl⟩
    seen := by
      intro depth session session' closed
      obtain ⟨⟨path, _, _, _, _, _, _, files, files'⟩, same⟩ := onward closed
      have includer : session'.includer = session.includer := by
        unfold Session.includer
        rw [files, files']
      rw [same]
      exact ⟨rfl, same ▸ includer, rfl, rfl, rfl⟩
    enter := by
      intro depth session session' inclusion path stream _ closed
      obtain ⟨one, same⟩ := onward closed
      refine ⟨.inr ⟨_, _, _, one, rfl, rfl⟩, ?_⟩
      unfold entered
      rw [same] }

omit shown in
theorem linked_advance_turned {framing : List Conditional → List Conditional → Prop} {token : Token}
    (goesOn : token.isEof = false) :
    Linked (.of fits) (Beside (OneFile (Turned (token :: rest) (token :: rest')) framing))
      (moveFile fuel .advance) fun _ => Beside (OneFile (Turned rest rest') framing) := by
  refine linked_advance fun turned => ?_
  refine (turned.past goesOn).turn ends ends' ?_
  obtain ⟨spot, rfl, rfl⟩ := turned
  simpa [Spot.expansion] using goesOn

/-- **A step at a directive line** does the same on both sides. -/
theorem linked_proceed_directive {depth : Nat} {mark name : Token} {later : List Token}
    (marks : mark.kind = .directive) (line : LineRest (name :: later))
    (reaches : ∀ directive ∈ name.directive?, directive.reaches = true → tails = none ∨ 0 < depth) :
    Linked .any
      (Beside (OneFile (Turned (mark :: name :: later ++ rest) (mark :: name :: later ++ rest'))
        (Framing tails depth))) (proceed fuel)
      fun _ => Beside (Followed rest rest' (Framing tails (deepenBy name.directive? depth))) := by
  have notEof : mark.isEof = false := by simp [Token.isEof, marks]
  have takes : Linked .any
      (Beside (OneFile (Turned (mark :: name :: later ++ rest) (mark :: name :: later ++ rest'))
        (Framing tails depth))) (takeRaw fuel)
      fun _ => Beside (OneFile (Turned (name :: later ++ rest) (name :: later ++ rest'))
        (Framing tails depth)) :=
    .take (fun _ _ => upcoming_of_oneFile Turned.lookahead_eq) fun _ =>
      (linked_advance_turned (line.terminated ends) (line.terminated ends') notEof).pre
        fun _ _ => And.left
  have handles : Linked .any
      (Beside (OneFile (Turned (name :: later ++ rest) (name :: later ++ rest'))
        (Framing tails depth)))
      (handleNamed fuel)
      fun _ => Beside (Followed rest rest' (Framing tails (deepenBy name.directive? depth))) := by
    refine .of_echoes fun session session' beside => ?_
    have within : (Lane.sides rest rest' tails).within depth session session' :=
      ⟨beside.1.imp (fun turned => turned.flush_of_line line) id, beside.2⟩
    have named : (upcoming session).directive? = name.directive? := by
      obtain ⟨⟨_, _, _, _, _, ⟨spot, rfl, _⟩, _, files, _⟩, _⟩ := beside
      unfold upcoming
      rw [files]
      exact directive?_presume spot.map name
    have goes := (linked_handleNamed (open_sides ends ends' shown) fuel (by rwa [named])).echoes
      ⟨within, rfl⟩
    rwa [named] at goes
  refine .of_echoes fun session session' beside => ?_
  have goes : Linked .any
      (Beside (OneFile (Turned (mark :: name :: later ++ rest) (mark :: name :: later ++ rest'))
        (Framing tails depth))) (do handleDirective fuel; return none : SessionM (Option Token))
      fun _ => Beside (Followed rest rest' (Framing tails (deepenBy name.directive? depth))) :=
    (takes.bind fun _ => handles).bind fun _ => .idle
  have goes := goes.echoes beside
  obtain ⟨⟨_, _, _, _, _, ⟨spot, rfl, rfl⟩, _, files, files'⟩, _⟩ := beside
  rw [proceed_of_files fuel files, proceed_of_files fuel files']
  have opens (path : String) (tokens : List Token) (frames : List Conditional) :
      (InputFile.mk path (.expansion (spot.expansion (mark :: name :: later ++ tokens)))
        frames).stream.head.kind = .directive := (kind_presume spot.map mark).trans marks
  rw [stepIn_of_directive fuel (opens _ _ _), stepIn_of_directive fuel (opens _ _ _)]
  exact goes

omit shown in
/-- **A step in a line** does the same on both sides, since no macro takes arguments. -/
theorem linked_proceed_line {framing : List Conditional → List Conditional → Prop}
    (shown : ∀ {frames frames'}, framing frames frames' →
      Conditional.isSkipping frames' = Conditional.isSkipping frames) :
    Linked .simple (Beside (OneFile (Abreast (Going rest rest')) framing)) (proceed fuel)
      fun _ => Beside (OneFile (Onward rest rest') framing) := by
  have moves : Linked .simple (Beside (OneFile (Abreast (Going rest rest')) framing))
      (moveFile fuel .advance) fun _ => Beside (OneFile (Onward rest rest') framing) :=
    linked_advance fun abreast => abreast.advance ends ends'
  have settles : Linked .simple (Beside (OneFile (Abreast (Going rest rest')) framing))
      (moveFile fuel .settle) fun _ => Beside (OneFile (Abreast (Going rest rest')) framing) :=
    linked_settle fun abreast => abreast.settle ends ends' _
  have emits : Linked .simple (Beside (OneFile (Abreast (Going rest rest')) framing))
      (emit fuel) fun _ => Beside (OneFile (Onward rest rest') framing) := by
    refine .bind (.head fun _ _ => upcoming_of_oneFile Abreast.lookahead_eq) fun token => ?_
    split
    · exact .pure fun _ _ here => ⟨here.1.1.imp .inl id, here.1.2⟩
    · refine .bind (.take (fun _ _ here => upcoming_of_oneFile Abreast.lookahead_eq here.1) ?_)
        fun _ =>
        .idle
      exact fun _ => moves.pre fun _ _ here => here.1.1
  refine .of_echoes fun session session' beside => ?_
  have here := beside
  obtain ⟨⟨path, expansion, expansion', frames, frames', abreast, framed, files, files'⟩, _⟩ := here
  let file : InputFile := ⟨path, .expansion expansion, frames⟩
  let file' : InputFile := ⟨path, .expansion expansion', frames'⟩
  have same : file'.stream.head = file.stream.head := abreast.lookahead_eq
  have goesOn : file.stream.head.isEof = false := abreast.going.goesOn
  have plain : file.stream.head.kind ≠ .directive := abreast.going.plain
  have passes : (file'.stream.head.kind == .newline || file'.isSkipping) =
      (file.stream.head.kind == .newline || file.isSkipping) := by
    rw [same]
    exact congrArg _ (shown framed)
  rw [proceed_of_files fuel files, proceed_of_files fuel files',
    stepIn_of_plain fuel goesOn plain rfl,
    stepIn_of_plain fuel (same ▸ goesOn) (same ▸ plain) passes]
  generalize (file.stream.head.kind == .newline || file.isSkipping) = passed
  cases passed with
  | true => exact (moves.bind fun _ => .idle : Linked _ _ (do
      moveFile fuel .advance
      return none : SessionM (Option Token)) fun _ => _).echoes beside
  | false => exact (settles.bind fun _ => emits).echoes beside

end Session

end Preproc
