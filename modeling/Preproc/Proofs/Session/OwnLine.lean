import Preproc.Proofs.Session.Definition

/-! # A directive takes its own line

Whatever a directive does with its line, the file stands at the end of the line or behind its
newline when it is done: nothing of the line is left and nothing of a later line is taken. An
include line may put one file on top, which stands at its beginning. The open conditionals change as
the name of the directive says, and the table as a definition line changes it.

Main statement: `Session.takes_handleDirective`.
-/

namespace Preproc

namespace Conditional

/-- What becomes of a conditional when its next branch begins. -/
structure GoesOn (frame next : Conditional) : Prop where
  directive : next.directive = frame.directive
  parentActive : next.parentActive = frame.parentActive
  branchTaken : frame.branchTaken = true → next.branchTaken = true
  active : next.active = true →
    frame.parentActive = true ∧ frame.branchTaken = false ∧ next.branchTaken = true

variable {frame : Conditional}

theorem goesOn_inactive : frame.GoesOn frame.inactive where
  directive := rfl
  parentActive := rfl
  branchTaken := id
  active := by simp [inactive]

theorem goesOn_enterElif (wanted : frame.wantsCondition = true) (enabled : Bool) :
    frame.GoesOn (frame.enterElif enabled) where
  directive := rfl
  parentActive := rfl
  branchTaken := by simp_all [wantsCondition]
  active := by simp_all [wantsCondition, enterElif]

theorem goesOn_enterElse : frame.GoesOn frame.enterElse where
  directive := rfl
  parentActive := rfl
  branchTaken := by simp [enterElse]
  active := by simp [enterElse]

end Conditional

/-- What a directive makes of the open conditionals. The name is the token after the `#`. -/
def Turns (name : Token) : Directive → (frames frames' : List Conditional) → Prop
  | .ifTrue, frames, frames' | .ifDefined, frames, frames' | .ifNotDefined, frames, frames' =>
    ∃ enabled, frames' = .opened name (!Conditional.isSkipping frames) enabled :: frames
  | .elseIf, frame :: outer, frames' => ∃ enabled,
    frames' = (if frame.wantsCondition then frame.enterElif enabled else frame.inactive) :: outer
  | .otherwise, frame :: outer, frames' =>
    frames' = (if frame.sawElse then frame.inactive else frame.enterElse) :: outer
  | .endIf, frames, frames' => frames' = frames.tail
  | _, frames, frames' => frames' = frames

variable {directive : Directive}

theorem turns_of_not_ofConditional {name : Token}
    (other : directive.ofConditional = false) (frames : List Conditional) :
    Turns name directive frames frames := by
  cases directive <;> first | rfl | cases other

theorem Turns.goesOn {name : Token} {frame : Conditional}
    {outer frames' : List Conditional} (turns : Turns name directive (frame :: outer) frames')
    (continues : directive = .elseIf ∨ directive = .otherwise) :
    ∃ next, frame.GoesOn next ∧ frames' = next :: outer := by
  rcases continues with rfl | rfl
  · obtain ⟨enabled, rfl⟩ := turns
    refine ⟨_, ?_, rfl⟩
    split
    next wanted => exact Conditional.goesOn_enterElif wanted enabled
    · exact Conditional.goesOn_inactive
  · cases turns
    refine ⟨_, ?_, rfl⟩
    split
    · exact Conditional.goesOn_inactive
    · exact Conditional.goesOn_enterElse

/-- Whether a directive of a conditional reports nothing, whatever follows it: it stands among lines
that are skipped because of what is around its conditional. -/
def Silent : Directive → (frames : List Conditional) → Prop
  | .ifTrue, frames | .ifDefined, frames | .ifNotDefined, frames =>
    Conditional.isSkipping frames = true
  | .elseIf, frame :: _ | .otherwise, frame :: _ =>
    frame.parentActive = false ∧ frame.sawElse = false
  | .endIf, frame :: _ => frame.parentActive = false
  | _, _ => False

def Directive.opens : Directive → Bool
  | .ifTrue | .ifDefined | .ifNotDefined => true
  | _ => false

variable {frames : List Conditional}

theorem silent_of_opens (opens : directive.opens = true) :
    Silent directive frames ↔ Conditional.isSkipping frames = true := by
  cases directive <;> first | exact Iff.rfl | cases opens

/-- What the tokens of a line after its `#` make of the open conditionals. The name of the directive
is known at the place where it is presumed to be. -/
def TurnedBy : (left : List Token) → (frames frames' : List Conditional) → Prop
  | [], frames, frames' => frames' = frames
  | first :: _, frames, frames' => match first.directive? with
    | none => frames' = frames
    | some directive => ∃ map, Turns (presume map first) directive frames frames'

/-- A file that was included and stands at its beginning. -/
def InputFile.Fresh (includes : IncludeSystem) (file : InputFile) : Prop :=
  ∃ source expansion, includes.read file.path = .ok source ∧ file.stream = .expansion expansion ∧
    expansion.origin = none ∧ expansion.At (scanTokens file.path source) ∧ file.conditionals = []

namespace Session

/-- The line is over. A file that it includes may be on top. -/
inductive Line.Left (line : Line) (frames : List Conditional) (session : Session) : Prop
  | own (past : line.Past frames session)
  | under {file : InputFile} {below : Session} (past : line.Past frames below)
      (includes : session.includes = line.includes) (fresh : file.Fresh line.includes)
      (files : session.files = file :: below.files)

theorem Line.Past.includes {line : Line} {session : Session}
    (past : line.Past frames session) : session.includes = line.includes := by
  rcases past with atEnd | ⟨_, stands⟩
  · exact atEnd.includes
  · exact stands.includes

/-- An action that keeps to contexts of one kind, however it fails. -/
abbrev Abides {α : Type} (kept : Context → Prop) (session : Session) (action : SessionM α)
    (gives : α → Session → Prop) : Prop :=
  Takes (fun _ => True) kept session action (fun _ => kept) gives

variable {kind : Directive}

section Handlers

variable {kept : Context → Prop} {footing : Footing}
  {fuel : Nat} (firm : footing.Firm (fun _ => True) kept fuel) (ofTable : OfTable kept)
  {line : Remainder} {frames : List Conditional} {session : Session} {directive : Token}

section Table

include ofTable

theorem takes_engine {α : Type} {action : Engine α}
    (steady : ∀ context value next, action context = .ok value next → next.table = context.table) :
    Abides kept session (liftM action) fun _ read => read = session :=
  (Takes.lift ⟨fun start ran => ⟨ofTable _ _ start (steady _ _ _ ran), trivial⟩,
    fun _ _ => trivial⟩).values fun _ _ => And.right

theorem takes_report (place : Location) (notice : Notice) :
    Abides kept session (report place notice) fun _ read => read = session := by
  constructor
  · rintro context _ next start ⟨⟩
    exact ⟨ofTable context _ start rfl, rfl⟩
  · exact fun _ _ => trivial

theorem takes_expandTokens (fuel : Nat) (tokens : List Token) (finish : Location) :
    Abides kept session (expandTokens fuel tokens finish : SessionM (List Token)) fun _ read =>
      read = session :=
  takes_engine ofTable (steady_expandTokens fuel tokens finish).table

theorem takes_anyTable {β : Type} {next : MacroTable → SessionM β} {last : β → Context → Prop}
    {wanted : β → Session → Prop}
    (rest : ∀ table, Takes (fun _ => True) kept session (next table) last wanted) :
    Takes (fun _ => True) kept session (table >>= next) last wanted := by
  have steady : Engine.Steady (do return (← get).table : Engine MacroTable) := .look id
  have looks : Abides kept session table fun _ read =>
      read = session := takes_engine ofTable steady.table
  refine .bind looks ?_
  rintro found _ rfl
  exact rest found

theorem takes_reportExtra (extra : List Token) :
    Abides kept session (reportExtra directive extra) fun _ read => read = session := by
  cases extra with
  | nil => exact .pure rfl
  | cons first extra => exact takes_report ofTable _ _

include firm

variable (inside : footing.Inside line frames session)

include inside

theorem takes_evaluateLine :
    Abides kept session (evaluateLine fuel directive) fun _ => footing.AtEnd line frames := by
  have complains {read : Session} (atEnd : footing.AtEnd line frames read) (tokens : List Token)
      (error : Condition.Error) :
      Abides kept read (do reportCondition directive tokens error; return false) fun _ =>
        footing.AtEnd line frames := by
    exact .pass (takes_report ofTable _ _) fun _ => .pure atEnd
  refine .bind (takes_restOfLine firm inside) ?_
  rintro tokens read atEnd
  refine .head (takes_anyTable ofTable fun table => ?_)
  split
  · exact complains atEnd _ _
  · refine .bind (takes_expandTokens ofTable fuel _ _) ?_
    rintro expanded _ rfl
    split
    · exact .pure atEnd
    · exact complains atEnd _ _
    · exact .throw trivial
    · exact .throw trivial

theorem takes_nameOnLine :
    Abides kept session (expectName fuel directive) fun _ => footing.Inside line frames := by
  refine .head ?_
  split
  next named =>
    exact .bind (takes_takeRaw firm inside (goesOn_of_isIdentifier named)) fun _ _ taken =>
      .pure taken.2
  · exact .pass (takes_report ofTable _ _) fun _ => .pure inside

theorem takes_expandedLine :
    Abides kept session (expandedLine fuel) fun _ => footing.AtEnd line frames := by
  refine .bind (takes_restOfLine firm inside) ?_
  rintro tokens read atEnd
  split
  · exact .pure atEnd
  split
  · refine .head ((takes_expandTokens ofTable fuel _ _).values ?_)
    rintro _ _ rfl
    exact atEnd
  · exact .pure atEnd

theorem takes_includeOperand :
    Abides kept session (includeOperand fuel directive) fun _ => footing.AtEnd line frames := by
  refine .bind (takes_expandedLine firm ofTable inside) fun tokens read atEnd => ?_
  split
  · exact .head (.pass (takes_report ofTable _ _) fun _ => .pure atEnd)
  split
  · exact .pass (takes_reportExtra ofTable _) fun _ => .pure atEnd
  split
  · split
    · exact .pass (takes_reportExtra ofTable _) fun _ => .pure atEnd
    · exact .pass (takes_report ofTable _ _) fun _ => .pure atEnd
  · exact .pass (takes_report ofTable _ _) fun _ => .pure atEnd

end Table

/-- What a directive that is handled leaves of its line: the rest of it is still to be ended. -/
structure Footing.Handles (footing : Footing) (line : Remainder) (name : Token)
    (frames : List Conditional) (directive : Directive) (ending : Ending) (read : Session) :
    Prop where
  left : ending ≠ .taken
  silent : Silent directive frames → ending = .unchecked
  turns : ∃ frames', Turns name directive frames frames' ∧ footing.Inside line frames' read

theorem handles_plain {ending : Ending}
    (plain : kind.ofConditional = false) (left : ending ≠ .taken)
    (inside : footing.Inside line frames session) :
    footing.Handles line directive frames kind ending session where
  left := left
  silent silent := by cases kind <;> first | exact silent.elim | cases plain
  turns := ⟨frames, turns_of_not_ofConditional plain frames, inside⟩

section Conditionals

include firm

theorem takes_setFrame (inside : footing.Inside line frames session) (frame : Conditional) :
    Abides kept session (setFrame frame) fun _ => footing.Inside line (frame :: frames.tail) := by
  obtain ⟨left, within, stands⟩ := inside
  exact (firm.modifyFrames stands (frame :: ·.tail)).values fun _ _ stands => ⟨left, within, stands⟩

theorem takes_currentFrame (may : frames = [] → OfTable kept)
    (inside : footing.Inside line frames session) :
    Abides kept session (currentFrame fuel directive) fun found read =>
      found = frames.head? ∧ footing.Inside line frames read := by
  obtain ⟨file, below, opened, shown, _⟩ := firm.file inside.choose_spec.2
  refine .get ?_
  rw [opened]
  dsimp only
  rw [shown]
  cases frames with
  | nil =>
    exact .pass (takes_report (may rfl) _ _) fun _ =>
      .bind (takes_skipLine firm inside) fun _ _ atEnd => .pure ⟨rfl, atEnd.inside⟩
  | cons frame outer => exact .pure ⟨rfl, inside⟩

variable {kind : Directive} (may : ¬ Silent kind frames → OfTable kept)
  (inside : footing.Inside line frames session)

include inside

theorem takes_opening (opens : kind.opens = true) {ending : Ending} (left : ending ≠ .taken)
    (quiet : Conditional.isSkipping frames = true → ending = .unchecked) (enabled : Bool) :
    Abides kept session (do
      openConditional directive (Conditional.isSkipping frames) enabled
      return ending) (footing.Handles line directive frames kind) := by
  obtain ⟨tokens, within, stands⟩ := inside
  refine .bind (firm.modifyFrames stands
    (.opened directive (!Conditional.isSkipping frames) enabled :: ·)) fun _ _ stands => .pure ?_
  refine ⟨left, fun silent => quiet ((silent_of_opens opens).mp silent), _, ?_, tokens, within,
    stands⟩
  cases kind <;> first | exact ⟨enabled, rfl⟩ | cases opens

include may

theorem takes_handleIf (opens : kind.opens = true) :
    Abides kept session (handleIf fuel directive (Conditional.isSkipping frames))
      (footing.Handles line directive frames kind) := by
  have taken := checkedUnless_ne_taken (Conditional.isSkipping frames)
  have quiet (skips : Conditional.isSkipping frames = true) :
      Ending.checkedUnless (Conditional.isSkipping frames) = .unchecked := by rw [skips]; rfl
  unfold handleIf
  split
  · refine .bind (takes_skipLine firm inside) fun _ _ atEnd => ?_
    exact takes_opening firm atEnd.inside opens taken quiet _
  next loud =>
    have ofTable := may fun silent => loud ((silent_of_opens opens).mp silent)
    refine .bind (takes_evaluateLine firm ofTable inside) fun _ _ atEnd => ?_
    exact takes_opening firm atEnd.inside opens taken quiet _

theorem takes_handleIfDefined (opens : kind.opens = true) (expected : Bool) :
    Abides kept session (handleIfDefined fuel directive (Conditional.isSkipping frames) expected)
      (footing.Handles line directive frames kind) := by
  have taken := checkedUnless_ne_taken (Conditional.isSkipping frames)
  have quiet (skips : Conditional.isSkipping frames = true) :
      Ending.checkedUnless (Conditional.isSkipping frames) = .unchecked := by rw [skips]; rfl
  unfold handleIfDefined
  split
  · refine .bind (takes_skipLine firm inside) fun _ _ atEnd => ?_
    exact takes_opening firm atEnd.inside opens taken quiet _
  next loud =>
    have ofTable := may fun silent => loud ((silent_of_opens opens).mp silent)
    refine .bind (takes_nameOnLine firm ofTable inside) fun found read inside => ?_
    cases found with
    | none => exact takes_opening firm inside opens (by simp) (fun _ => rfl) _
    | some name =>
      refine takes_anyTable ofTable fun table => ?_
      exact takes_opening firm inside opens taken quiet _

end Conditionals

section Continues

variable (inside : footing.Inside line frames session)

include firm inside

theorem takes_handleElif (may : ¬ Silent .elseIf frames → OfTable kept) :
    Abides kept session (handleElif fuel directive)
      (footing.Handles line directive frames .elseIf) := by
  refine .bind (takes_currentFrame firm ?_ inside) ?_
  · rintro rfl
    exact may id
  rintro _ read ⟨rfl, inside⟩
  cases frames with
  | nil => exact .pure ⟨by simp, fun _ => rfl, [], rfl, inside⟩
  | cons frame outer =>
    have silent (silent : Silent .elseIf (frame :: outer)) :
        Ending.checkedUnless (frame.sawElse || !frame.parentActive) = .unchecked := by
      simp [silent.1, Ending.checkedUnless]
    refine .optional (fun again => takes_report (may ?_) _ _) (fun _ => rfl) ?_
    · rintro ⟨_, first⟩
      rw [again] at first
      cases first
    rintro _ rfl
    split
    next wanted =>
      have ofTable : OfTable kept := by
        apply may
        rintro ⟨inactive, _⟩
        simp [Conditional.wantsCondition, inactive] at wanted
      refine .bind (takes_evaluateLine firm ofTable inside) fun enabled _ atEnd => ?_
      refine .bind (takes_setFrame firm atEnd.inside _) fun _ _ inside => .pure ?_
      exact ⟨checkedUnless_ne_taken _, silent, _, ⟨enabled, by rw [if_pos wanted]; rfl⟩, inside⟩
    next unasked =>
      refine .bind (takes_setFrame firm inside _) fun _ _ inside => ?_
      refine .bind (takes_skipLine firm inside) fun _ _ atEnd => .pure ?_
      exact ⟨checkedUnless_ne_taken _, silent, _, ⟨false, by rw [if_neg unasked]; rfl⟩,
        atEnd.inside⟩

theorem takes_handleElse (may : ¬ Silent .otherwise frames → OfTable kept) :
    Abides kept session (handleElse fuel directive)
      (footing.Handles line directive frames .otherwise) := by
  refine .bind (takes_currentFrame firm ?_ inside) ?_
  · rintro rfl
    exact may id
  rintro _ read ⟨rfl, inside⟩
  cases frames with
  | nil => exact .pure ⟨by simp, fun _ => rfl, [], rfl, inside⟩
  | cons frame outer =>
    have silent (silent : Silent .otherwise (frame :: outer)) :
        Ending.checkedUnless (!frame.parentActive) = .unchecked := by
      simp [silent.1, Ending.checkedUnless]
    dsimp only [List.head?_cons]
    split
    next again =>
      refine .bind (takes_report (may ?_) _ _) ?_
      · rintro ⟨_, first⟩
        rw [again] at first
        cases first
      rintro _ _ rfl
      refine .bind (takes_setFrame firm inside _) fun _ _ inside => .pure ?_
      exact ⟨checkedUnless_ne_taken _, silent, _, show _ = _ by rw [if_pos again]; rfl, inside⟩
    next first =>
      refine .bind (takes_setFrame firm inside _) fun _ _ inside => .pure ?_
      exact ⟨checkedUnless_ne_taken _, silent, _, show _ = _ by rw [if_neg first]; rfl, inside⟩

theorem takes_handleEndif (may : ¬ Silent .endIf frames → OfTable kept) :
    Abides kept session (handleEndif fuel directive)
      (footing.Handles line directive frames .endIf) := by
  refine .bind (takes_currentFrame firm ?_ inside) ?_
  · rintro rfl
    exact may id
  rintro _ read ⟨rfl, inside⟩
  cases frames with
  | nil => exact .pure ⟨by simp, fun _ => rfl, [], rfl, inside⟩
  | cons frame outer =>
    obtain ⟨left, within, stands⟩ := inside
    refine .bind (firm.modifyFrames stands List.tail) fun _ _ stands => .pure ?_
    refine ⟨checkedUnless_ne_taken _, fun silent => ?_, outer, rfl, left, within, stands⟩
    rw [show frame.parentActive = false from silent]
    rfl

/-- **A directive of a conditional** turns the open conditionals and changes no table. It leaves the
context alone if it is silent. -/
theorem takes_conditional (counts : kind.ofConditional = true)
    (may : ¬ Silent kind frames → OfTable kept) :
    Abides kept session (handle fuel directive (Conditional.isSkipping frames) kind)
      (footing.Handles line directive frames kind) := by
  cases kind with
  | ifTrue => exact takes_handleIf firm may inside rfl
  | ifDefined => exact takes_handleIfDefined firm may inside rfl true
  | ifNotDefined => exact takes_handleIfDefined firm may inside rfl false
  | elseIf => exact takes_handleElif firm inside may
  | otherwise => exact takes_handleElse firm inside may
  | endIf => exact takes_handleEndif firm inside may
  | _ => cases counts

theorem takes_handlePragma
    (noted : ∀ {frames tokens session}, footing frames tokens session → ∀ paths,
      footing frames tokens { session with onceOnly := paths }) :
    Abides kept session (handlePragma fuel) (footing.Handles line directive frames .pragma) := by
  refine .head ?_
  split
  next once =>
    simp only [Bool.and_eq_true] at once
    refine .bind (takes_takeRaw firm inside (goesOn_of_isIdentifier once.1)) ?_
    rintro _ read ⟨rfl, left, within, stands⟩
    refine .modifyThen (.pure (handles_plain rfl (by simp) ⟨left, within, ?_⟩))
    split
    · exact stands
    · exact noted stands _
  · exact .bind (takes_skipLine firm inside) fun _ _ atEnd =>
      .pure (handles_plain rfl (by simp) atEnd.inside)

include ofTable

theorem takes_handleUserNotice (plain : kind.ofConditional = false) (notice : String → Notice) :
    Abides kept session (handleUserNotice fuel directive notice)
      (footing.Handles line directive frames kind) := by
  refine .bind (takes_restOfLine firm inside) ?_
  rintro tokens read atEnd
  exact .pass (takes_report ofTable _ _) fun _ =>
    .pure (handles_plain plain (by simp) atEnd.inside)

end Continues

end Handlers

def lineDirective (left : List Token) : Option Directive :=
  left.head?.bind Token.directive?

section Directives

variable {fails : Failure → Prop} {kept kept' : Context → Prop} {footing : Footing}
  {fuel : Nat} (firm : footing.Firm fails kept fuel) (line : Remainder) {frames : List Conditional}
  {session : Session} {mark first : Token} {left : List Token}

include firm

theorem takes_isSkipping {tokens : List Token} (stands : footing frames tokens session) :
    Takes fails kept session isSkipping (fun _ => kept) fun quiet read =>
      quiet = Conditional.isSkipping frames ∧ read = session := by
  obtain ⟨file, below, opened, rfl, _⟩ := firm.file stands
  refine .get ?_
  rw [opened]
  exact .pure ⟨rfl, rfl⟩

theorem takes_idleLine (calm : Conditional.isSkipping frames = false → Calm kept)
    (stands : footing frames (mark :: (left ++ line.ending :: line.rest)) session)
    (marks : mark.isEof = false)
    (within : ∀ token ∈ left, token.endsLine = false ∧ line.fits token.kind)
    (idle : ∀ directive ∈ lineDirective left,
      Conditional.isSkipping frames = true ∧ directive.ofConditional = false) :
    Takes fails kept session (handleDirective fuel) (fun _ => kept) fun _ =>
      footing.AtEnd line frames := by
  have ends : Terminated (left ++ line.ending :: line.rest) :=
    line.terminated.append fun token member => isEof_of_inside (within token member).1
  refine .bind (takes_takeToken firm stands marks (ends.cons marks)) ?_
  rintro _ read ⟨rfl, stands⟩
  have skips : Takes fails kept read (skipLine fuel) (fun _ => kept) fun _ =>
      footing.AtEnd line frames := takes_skipLine firm ⟨left, within, stands⟩
  have reports (place : Location) {notice : Notice} (mild : notice.Mild) :
      Takes fails kept read (do
        if !Conditional.isSkipping frames then report place notice
        skipLine fuel) (fun _ => kept) fun _ => footing.AtEnd line frames := by
    refine .optional (fun loud => .report (calm (by simpa using loud)) place mild) (fun _ => rfl) ?_
    rintro _ rfl
    exact skips
  refine .head ?_
  cases left with
  | nil =>
    obtain ⟨map, shown⟩ := firm.shows stands
    rw [shown, endsLine_presume, line.ends, if_pos rfl]
    exact .pure stands
  | cons first left =>
    obtain ⟨map, shown⟩ := firm.shows stands
    rw [shown, endsLine_presume, (within first List.mem_cons_self).1, if_neg Bool.false_ne_true]
    refine .bind (takes_isSkipping firm stands) ?_
    rintro _ _ ⟨rfl, rfl⟩
    rw [isIdentifier_presume, lexeme_presume]
    split
    · exact reports _ (by decide)
    next named =>
      have names : lineDirective (first :: left) = Directive.ofName? first.lexeme := by
        simp_all [lineDirective, Token.directive?]
      split
      · exact reports _ (by simp [Notice.Mild, Notice.code, refusals])
      next directive known =>
        obtain ⟨quiet, plain⟩ := idle directive (names.trans known)
        rw [quiet, plain]
        exact skips

theorem takes_handledLine {after : Context → Prop} {gives : Session → Prop}
    (named : first.directive? = some directive)
    (acts : Conditional.isSkipping frames = true → directive.ofConditional = true)
    (stands : footing frames (mark :: first :: (left ++ line.ending :: line.rest)) session)
    (marks : mark.isEof = false) (inside : ∀ token ∈ left, token.endsLine = false)
    (handles : ∀ map read, footing frames (left ++ line.ending :: line.rest) read →
      Takes fails kept read (do
        let ending ← handle fuel (presume map first) (Conditional.isSkipping frames) directive
        endLine fuel (presume map first) ending) (fun _ => after) fun _ => gives) :
    Takes fails kept session (handleDirective fuel) (fun _ => after) fun _ => gives := by
  have identifier : first.isIdentifier = true := by
    by_contra other
    rw [Token.directive?, if_neg other] at named
    cases named
  rw [Token.directive?, if_pos identifier] at named
  have goesOn := goesOn_of_isIdentifier identifier
  have ends : Terminated (left ++ line.ending :: line.rest) :=
    line.terminated.append fun token member => isEof_of_inside (inside token member)
  have whole := ends.cons (isEof_of_inside goesOn)
  refine .bind (takes_takeToken firm stands marks (whole.cons marks)) ?_
  rintro _ read ⟨rfl, stands⟩
  obtain ⟨map, shown⟩ := firm.shows stands
  refine .head ?_
  rw [shown, endsLine_presume, goesOn, if_neg Bool.false_ne_true]
  refine .bind (takes_isSkipping firm stands) ?_
  rintro _ _ ⟨rfl, rfl⟩
  rw [isIdentifier_presume, lexeme_presume, identifier, named]
  dsimp only
  rw [if_neg (by simp), if_neg (by simpa using acts)]
  refine .bind (takes_takeToken firm stands (isEof_of_inside goesOn) whole) ?_
  rintro _ read ⟨rfl, stands⟩
  exact handles map read stands

end Directives

section OnLines

variable {kept : Context → Prop} (ofTable : OfTable kept) {line : Line}
  {frames : List Conditional} {session : Session} (fuel : Nat) {directive : Token}

include ofTable

theorem takes_openReference (past : line.Past frames session) (reference : Reference) :
    Abides kept session (openReference fuel directive reference) fun _ read =>
      line.Left frames read := by
  refine .get ?_
  dsimp only
  split
  · exact .throw trivial
  · refine (takes_report ofTable _ _).values ?_
    rintro _ _ rfl
    exact .own past
  split
  · exact .pure (.own past)
  split
  · exact .pass (takes_report ofTable _ _) fun _ => .pure (.own past)
  split
  · exact .throw trivial
  · refine (takes_report ofTable _ _).values ?_
    rintro _ _ rfl
    exact .own past
  next source read =>
    refine .modifyThen (.bind (takes_engine ofTable (Engine.Steady.trace _).table) ?_)
    rintro _ _ rfl
    refine (takes_openFile ofTable.calm (fun _ => trivial) source _).values ?_
    rintro _ _ ⟨expansion, rfl, origin, here⟩
    refine .under past past.includes ⟨source, expansion, ?_, rfl, origin, here, rfl⟩ rfl
    rw [← past.includes]
    exact read

/-- What a directive leaves of its line: the rest of the line is to be ended, or the line is over.
-/
def Line.Handled (line : Line) (name : Token) (frames : List Conditional) (directive : Directive)
    (ending : Ending) (read : Session) : Prop :=
  Footing.Handles line.Stands line.remainder name frames directive ending read ∨
    ending = .taken ∧ directive.ofConditional = false ∧ line.Left frames read

theorem takes_handleInclude (inside : line.Inside frames session) :
    Abides kept session (handleInclude fuel directive)
      (line.Handled directive frames .include) := by
  have firm : Footing.Firm (fun _ => True) kept fuel line.Stands := line.firm trivial ofTable.calm _
  refine .bind (takes_includeOperand firm ofTable inside) fun found read atEnd => ?_
  cases found with
  | none => exact .pure (.inl (handles_plain rfl (by simp) atEnd.inside))
  | some reference =>
    refine .bind (takes_endLine firm (by simp) (fun _ => ofTable.calm) atEnd.inside) ?_
    intro _ read past
    refine .bind (takes_openReference ofTable fuel (Line.past_of_over past) reference) ?_
    exact fun _ _ left => .pure (.inr ⟨rfl, rfl, left⟩)

omit ofTable in
theorem takes_renumber (atEnd : line.AtEnd frames session) (first : Int) (file : Option String) :
    Abides kept session (renumber first file) fun _ read => line.AtEnd frames read := by
  obtain ⟨includes, expansion, opened, origin, here⟩ := atEnd
  obtain ⟨token, rest, map, scanner, whole, shown, sources, lenient, left⟩ := here
  refine .modify ?_
  rw [opened]
  refine ⟨includes, { expansion with sources := [.scanner (scanner.renumber first file)] }, ?_,
    origin, token, rest, map, scanner.renumber first file, whole, shown, rfl, lenient, left⟩
  simp only [TokenStream.renumber, sources, TokenStream.renumberBottom]

theorem takes_handleLine (inside : line.Inside frames session) :
    Abides kept session (handleLine fuel directive)
      (Footing.Handles line.Stands line.remainder directive frames .line) := by
  have ends {ending : Ending} {read : Session} (left : ending ≠ .taken)
      (atEnd : Footing.AtEnd line.Stands line.remainder frames read) :
      Footing.Handles line.Stands line.remainder directive frames .line ending read :=
    handles_plain rfl left atEnd.inside
  refine .bind (takes_expandedLine (line.firm trivial ofTable.calm fuel) ofTable inside)
    fun tokens read atEnd => ?_
  split
  · exact .pass (takes_report ofTable _ _) fun _ => .pure (ends (by simp) atEnd)
  split
  · split
    · exact .throw trivial
    · exact .pass (takes_report ofTable _ _) fun _ => .pure (ends (by simp) atEnd)
    · unfold renumberFrom
      split
      · exact .bind (takes_renumber atEnd _ _) fun _ _ atEnd => .pure (ends (by simp) atEnd)
      split
      · exact .pass (takes_reportExtra ofTable _) fun _ =>
          .bind (takes_renumber atEnd _ _) fun _ _ atEnd => .pure (ends (by simp) atEnd)
      · exact .pass (takes_report ofTable _ _) fun _ => .pure (ends (by simp) atEnd)
  · exact .pass (takes_report ofTable _ _) fun _ => .pure (ends (by simp) atEnd)

def Directive.defines : Directive → Bool
  | .define | .undefine => true
  | _ => false

theorem takes_handle (inside : line.Inside frames session)
    (other : Directive.defines kind = false) :
    Abides kept session (handle fuel directive (Conditional.isSkipping frames) kind)
      (line.Handled directive frames kind) := by
  have firm : Footing.Firm (fun _ => True) kept fuel line.Stands := line.firm trivial ofTable.calm _
  have handles {action : SessionM Ending}
      (takes : Abides kept session action
        (Footing.Handles line.Stands line.remainder directive frames kind)) :
      Abides kept session action (line.Handled directive frames kind) := takes.values fun _ _ =>
        .inl
  by_cases counts : kind.ofConditional = true
  · exact handles (takes_conditional firm inside counts fun _ => ofTable)
  cases kind with
  | define => cases other
  | undefine => cases other
  | «include» => exact takes_handleInclude ofTable fuel inside
  | userError | userWarning => exact handles (takes_handleUserNotice firm ofTable inside rfl _)
  | line => exact handles (takes_handleLine ofTable fuel inside)
  | pragma =>
    refine handles (takes_handlePragma firm inside ?_)
    exact fun stands _ => ⟨stands.includes, stands.file⟩
  | _ => exact absurd rfl counts

end OnLines

section Whole

variable {fails : Failure → Prop} {kept kept' : Context → Prop} {line : Line}
  {frames : List Conditional} {session : Session} {mark : Token} {left : List Token} (fuel : Nat)

/-- A directive that is handled on its line has the whole line taken. -/
theorem takes_handleDirective (bounded : fails .outOfFuel) (calm : Calm kept) (calm' : Calm kept')
    (weaker : ∀ context, kept context → kept' context)
    (stands : line.Stands frames (mark :: (left ++ line.ending :: line.rest)) session)
    (marks : mark.isEof = false)
    (within : ∀ token ∈ left, token.endsLine = false ∧ line.fits token.kind)
    (handles : ∀ first ∈ left.head?, ∀ directive ∈ first.directive?, ∀ map read,
      line.Stands frames (left.tail ++ line.ending :: line.rest) read → Takes fails kept read
        (handle fuel (presume map first) (Conditional.isSkipping frames) directive)
        (fun _ => kept') (line.Handled (presume map first) frames directive)) :
    Takes fails kept session (handleDirective fuel) (fun _ => kept') fun _ read =>
      ∃ frames', TurnedBy left frames frames' ∧ line.Left frames' read := by
  have firm := line.firm bounded calm fuel
  have leaves (turned : TurnedBy left frames frames) (idle : ∀ directive ∈ lineDirective left,
      Conditional.isSkipping frames = true ∧ directive.ofConditional = false) :
      Takes fails kept session (handleDirective fuel) (fun _ => kept') fun _ read =>
        ∃ frames', TurnedBy left frames frames' ∧ line.Left frames' read :=
    (takes_idleLine firm line.remainder (fun _ => calm) stands marks within idle).imp
      (fun _ => weaker) fun _ _ atEnd => ⟨frames, turned, .own (.inl atEnd)⟩
  cases left with
  | nil => exact leaves rfl (by simp [lineDirective])
  | cons first left =>
    cases named : first.directive? with
    | none => exact leaves (by simp [TurnedBy, named]) (by simp [lineDirective, named])
    | some directive =>
      have turned {map : Option LineMap} {frames' : List Conditional}
          (turns : Turns (presume map first) directive frames frames') :
          TurnedBy (first :: left) frames frames' := by
        simp only [TurnedBy, named]
        exact ⟨map, turns⟩
      by_cases acts : Conditional.isSkipping frames = true → directive.ofConditional = true
      · obtain ⟨_, inside⟩ := List.forall_mem_cons.mp within
        refine takes_handledLine firm line.remainder named acts stands marks
          (fun token member => (inside token member).1) fun map read stands => ?_
        refine .bind (handles first rfl directive named map read stands) ?_
        rintro ending last (⟨toEnd, _, frames', turns, inside⟩ | ⟨rfl, plain, gone⟩)
        · exact (takes_endLine (line.firm bounded calm' fuel) toEnd (fun _ => calm') inside).values
            fun _ _ done => ⟨frames', turned turns, .own (Line.past_of_over done)⟩
        · exact .pure ⟨frames, @turned none _ (turns_of_not_ofConditional plain frames), gone⟩
      · obtain ⟨quiet, plain⟩ := Classical.not_imp.mp acts
        have plain : directive.ofConditional = false := by simpa using plain
        refine leaves (@turned none _ (turns_of_not_ofConditional plain frames)) ?_
        simpa [lineDirective, named] using ⟨quiet, plain⟩

/-- A definition line is refused or not, and breaks no promise. The body of a macro is the end of
the line. -/
theorem takes_writtenLine {context : Context}
    (stands : line.Stands frames (mark :: (left ++ line.ending :: line.rest)) session)
    (marks : mark.isEof = false) (within : Fitting line.fits left)
    (defines : ∀ directive ∈ lineDirective left, Directive.defines directive = true) :
    Takes (· = .outOfFuel) context.Calmly session (handleDirective fuel)
      (fun _ => context.Writes (TakenFrom left)) fun _ read =>
      ∃ frames', TurnedBy left frames frames' ∧ line.Left frames' read := by
  refine takes_handleDirective fuel rfl (calm_calmly context) (calm_writes (TakenFrom left) context)
    (fun _ calmly => .inl calmly.table) stands marks within ?_
  intro first head directive known map read stands
  have known : directive ∈ lineDirective left :=
    Option.mem_bind_iff.mpr ⟨first, head, known⟩
  have among : line.Among frames left read := ⟨left.tail, List.tail_suffix left, stands⟩
  have inside : ∀ token ∈ left, token.endsLine = false := fun token member =>
    (within token member).1
  have handles {kind : Directive} (plain : kind.ofConditional = false) {action : SessionM Ending}
      (takes : Takes (· = .outOfFuel) context.Calmly read action
        (fun _ => context.Writes (TakenFrom left)) fun ending last =>
          ending ≠ .taken ∧ line.Among frames left last) :
      Takes (· = .outOfFuel) context.Calmly read action (fun _ => context.Writes (TakenFrom left))
        (line.Handled (presume map first) frames kind) := by
    apply takes.values
    rintro ending last ⟨toEnd, among⟩
    exact .inl (handles_plain plain toEnd (among.inside within))
  have defines := defines directive known
  cases directive with
  | define => exact handles rfl (takes_handleDefine (by rfl) fuel inside _ among)
  | undefine => exact handles rfl (takes_handleUndefine (by rfl) fuel inside _ among)
  | _ => cases defines

/-- **A directive takes its own line.** It may turn the open conditionals, edit the table and put an
included file on top, and stands at the end of its line or behind its newline. -/
theorem takes_directive {context : Context}
    (stands : line.Stands frames (mark :: (left ++ line.ending :: line.rest)) session)
    (marks : mark.isEof = false)
    (within : ∀ token ∈ left, token.endsLine = false ∧ line.fits token.kind) :
    Takes (fun _ => True) (· = context) session (handleDirective fuel)
      (fun _ next => next.table = context.table ∨ context.table.Edits (TakenFrom left) next.table)
      fun _ read => ∃ frames', TurnedBy left frames frames' ∧ line.Left frames' read := by
  by_cases defines : ∀ directive ∈ lineDirective left, Directive.defines directive = true
  · constructor
    · rintro _ found next rfl ran
      have led := (takes_writtenLine fuel stands marks within defines).done (.refl _) ran
      exact led.imp_left fun defined => defined.imp_right And.left
    · exact fun _ _ => trivial
  · have ofTable : OfTable fun next => next.table = context.table :=
      fun middle next same kept => kept.trans same
    have takes : Takes (fun _ => True) (·.table = context.table) session (handleDirective fuel)
        (fun _ next => next.table = context.table) fun _ read =>
          ∃ frames', TurnedBy left frames frames' ∧ line.Left frames' read := by
      refine takes_handleDirective fuel trivial ofTable.calm ofTable.calm (fun _ => id) stands marks
        within ?_
      intro first head directive known map read stands
      have inside : line.Inside frames read :=
        ⟨left.tail, fun token member => within token (List.mem_of_mem_tail member), stands⟩
      refine takes_handle ofTable fuel inside (Bool.eq_false_iff.mpr fun edits => defines ?_)
      intro other among
      obtain ⟨_, head', known'⟩ := Option.mem_bind_iff.mp among
      cases Option.mem_unique head' head
      cases Option.mem_unique known' known
      exact edits
    apply (takes.imp (fun _ _ => .inl) fun _ _ => id).before_imp
    rintro _ rfl
    rfl

end Whole

end Session

end Preproc
