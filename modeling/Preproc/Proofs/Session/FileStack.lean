import Mathlib.Logic.Relation
import Preproc.Proofs.Session.Runs
import Preproc.Proofs.Session.Twins

/-! # The stack of files

Files are opened by pushing sources and by include lines, and are left one by one or closed all
together. `FileStep` says what one thing done with a session makes of what it has on record about
its files. The depth is the number of open files, an included file is never too deep, and a file
that is to be read only once is not included again.

Main statement: `file_stack_of_reached`.
-/

namespace Preproc

namespace Session

/-- What a session has on record about its files. -/
structure FileRecord where
  /-- The paths of the open files, the one being read first. -/
  paths : List String
  depth : Nat
  onceOnly : List String
  inclusions : Array Inclusion

def record (session : Session) : FileRecord :=
  ⟨session.files.map (·.path), session.depth, session.onceOnly, session.inclusions⟩

end Session

open Session (FileRecord Takes)

/-- What a step of reading makes of the record of files, under a limit on the depth at which a file
may be included. -/
inductive FileStep (limit : Nat) (record : FileRecord) : FileRecord → Prop
  | stays : FileStep limit record record
  | includes (inclusion : Inclusion) (fresh : inclusion.path ∉ record.onceOnly)
      (room : record.depth ≤ limit) : FileStep limit record
      { record with
        paths := inclusion.path :: record.paths
        depth := record.depth + 1
        inclusions := record.inclusions.push inclusion }
  | marks (path : String) (top : record.paths.head? = some path) : FileStep limit record
      { record with onceOnly := path :: record.onceOnly }
  | leaves : FileStep limit record
      { record with paths := record.paths.tail, depth := record.depth - 1 }
  | closes : FileStep limit record { record with paths := [], depth := 0 }

theorem FileStep.opens {limit : Nat} {record after : FileRecord}
    (step : FileStep limit record after) :
    (after.inclusions = record.inclusions ∧ after.paths <:+ record.paths) ∨
      ∃ inclusion : Inclusion, inclusion.path ∉ record.onceOnly ∧
        after.inclusions = record.inclusions.push inclusion ∧
        after.paths = inclusion.path :: record.paths ∧ after.depth ≤ limit + 1 := by
  cases step with
  | stays => exact .inl ⟨rfl, List.suffix_rfl⟩
  | includes inclusion fresh room => exact .inr ⟨inclusion, fresh, rfl, rfl, Nat.succ_le_succ room⟩
  | marks path top => exact .inl ⟨rfl, List.suffix_rfl⟩
  | leaves => exact .inl ⟨rfl, List.tail_suffix _⟩
  | closes => exact .inl ⟨rfl, List.nil_suffix⟩

/-- What one thing done with a session makes of its record of files. -/
inductive FileMove (limit : Nat) (record : FileRecord) : FileRecord → Prop
  | pushes (sources : List String) : FileMove limit record
      { record with paths := sources ++ record.paths, depth := record.depth + sources.length }
  | reads {after : FileRecord} (step : FileStep limit record after) : FileMove limit record after

variable {path : String}

namespace FileMove

variable {limit : Nat} {record after : FileRecord}

theorem depth_eq (move : FileMove limit record after)
    (counted : record.depth = record.paths.length) : after.depth = after.paths.length := by
  cases move with
  | pushes sources => simp [counted, Nat.add_comm]
  | reads step =>
    cases step with
    | stays => exact counted
    | includes inclusion fresh room => simp [counted]
    | marks path top => exact counted
    | leaves => simp [counted]
    | closes => rfl

theorem mem_onceOnly (move : FileMove limit record after)
    (member : path ∈ record.onceOnly) : path ∈ after.onceOnly := by
  cases move with
  | pushes sources => exact member
  | reads step =>
    cases step with
    | marks other top => exact List.mem_cons_of_mem other member
    | _ => exact member

theorem inclusions_eq (move : FileMove limit record after) :
    ∃ added, after.inclusions.toList = record.inclusions.toList ++ added ∧
      ∀ inclusion ∈ added, inclusion.path ∉ record.onceOnly := by
  cases move with
  | pushes sources => exact ⟨[], by simp, by simp⟩
  | reads step =>
    cases step with
    | includes inclusion fresh room => exact ⟨[inclusion], by simp, by simpa using fresh⟩
    | _ => exact ⟨[], by simp, by simp⟩

end FileMove

namespace Session

/-- A session beside itself, as long as nothing happens to its record. -/
def recorded (start : Session) : Twins where
  retune := id
  below := []
  below' := []
  kept session := session.options = start.options ∧ session.record = start.record

theorem kept_recorded (start : Session) : (recorded start).Lawful .any := by
  refine ⟨?_, fun _ => trivial, fun _ _ _ => trivial, Realm.builds_any⟩
  rintro ⟨options, includes, files⟩ change same _ ⟨rfl, kept⟩
  refine ⟨by cases files <;> rfl, ?_⟩
  rw [← kept]
  cases files with
  | nil => rfl
  | cons file below => simp [retop, record, same]

theorem lawful_recorded (start : Session) : (recorded start).lane.Lawful .any :=
  lawful_lane (kept_recorded start)

/-- Where an action succeeds, it gives and leaves what is stated. -/
abbrev Ensures {α : Type} (session : Session) (action : SessionM α)
    (gives : α → Session → Prop) : Prop :=
  Takes (fun _ => True) (fun _ => True) session action (fun _ _ => True) gives

/-- An action that neither opens nor leaves a file, and puts nothing on record. -/
def Still {α : Type} (action : SessionM α) : Prop :=
  ∀ start, Linked .any (recorded start).Alike action

namespace Still

variable {α : Type} {action : SessionM α}

theorem of_linked {after : Session → α → Pairing}
    (linked : ∀ start, Linked .any (recorded start).Alike action (after start))
    (kept : ∀ {start value session session'}, after start value session session' →
      (recorded start).Alike session session') : Still action :=
  fun start => (linked start).post fun _ _ _ => kept

theorem pure (value : α) : Still (pure value) :=
  fun _ => .idle

theorem report (place : Location) {notice : Notice} (other : notice ≠ .tooManyErrors) :
    Still (Session.report place notice) :=
  fun _ => .report place other

theorem bind {β : Type} {next : α → SessionM β} (first : Still action)
    (rest : ∀ value, Still (next value)) : Still (action >>= next) :=
  fun start => (first start).bind fun value => rest value start

theorem ensures (still : Still action) (session : Session) :
    Ensures session action fun _ after =>
      after.options = session.options ∧ after.record = session.record := by
  refine ⟨fun _ ran => ⟨trivial, ?_⟩, fun _ _ => trivial⟩
  have alike : (recorded session).Alike session session :=
    ⟨session.files, fun _ => ⟨rfl, rfl⟩, ⟨rfl, rfl⟩, by simp [recorded], by simp [recorded]⟩
  obtain ⟨_, _, _, _, _, _, _, kept, _⟩ := (still session).run alike trivial rfl ran
  exact kept

end Still

/-- An action that does one thing with the record of files. -/
abbrev Filed {α : Type} (session : Session) (action : SessionM α) : Prop :=
  Ensures session action fun _ after =>
    FileStep session.options.maxIncludeDepth session.record after.record

namespace Filed

variable {α β : Type} {session : Session} {action : SessionM α}

theorem of_ok (steps : ∀ {context value after next},
    action session context = .ok (value, after) next →
      FileStep session.options.maxIncludeDepth session.record after.record) :
    Filed session action :=
  ⟨fun _ ran => ⟨trivial, steps ran⟩, fun _ _ => trivial⟩

theorem of_still (still : Still action) : Filed session action :=
  (still.ensures session).values fun _ _ kept => kept.2 ▸ .stays

theorem behind {next : α → SessionM β} (still : Still action)
    (filed : ∀ value middle, Filed middle (next value)) : Filed session (action >>= next) := by
  refine .bind (still.ensures session) ?_
  rintro value middle ⟨options, record⟩
  exact options ▸ record ▸ filed value middle

theorem before {next : α → SessionM β} (filed : Filed session action)
    (still : ∀ value, Still (next value)) : Filed session (action >>= next) := by
  refine .bind filed fun value middle step => ?_
  exact ((still value).ensures middle).values fun _ _ kept => kept.2 ▸ step

theorem get {next : Session → SessionM β} (filed : Filed session (next session)) :
    Filed session (get >>= next) :=
  Takes.get filed

theorem throw (failure : Failure) : Filed session (throw failure : SessionM α) :=
  Takes.throw trivial

end Filed

variable {session : Session} (fuel : Nat) (directive : Token)

theorem still_rawHead : Still rawHead :=
  .of_linked (fun start => (linked_rawHead (lawful_recorded start) :
    Linked _ ((recorded start).lane.within 0) _ _)) And.left

theorem still_takeRaw : Still (takeRaw fuel) :=
  fun start => linked_take fuel (kept_recorded start)

theorem still_skipLine : Still (skipLine fuel) :=
  .of_linked (fun start => (linked_skipLine (lawful_recorded start) fuel :
    Linked _ ((recorded start).lane.within 0) _ _)) And.left

theorem still_endLine (ending : Ending) : Still (endLine fuel directive ending) := by
  by_cases taken : ending = .taken
  · subst taken
    exact .pure ()
  · exact .of_linked (fun start => (linked_endLine (lawful_recorded start) fuel directive taken :
      Linked _ ((recorded start).lane.within 0) _ _)) alike_of_closed

theorem still_passed {notice : Notice} (quiet : Bool) (other : notice ≠ .tooManyErrors) :
    Still (do
      if !quiet then report directive.location notice
      skipLine fuel) := by
  split
  · exact .bind (.report _ other) fun _ => still_skipLine fuel
  · exact still_skipLine fuel

variable {after : Session} {context next : Context}

theorem record_of_openFile {source : String}
    (ran : openFile fuel source path session context = .ok ((), after) next) :
    after.record = { session.record with
      paths := path :: session.record.paths
      depth := session.record.depth + 1 } := by
  have calm : Calm fun _ => True := fun _ _ _ _ => trivial
  have takes : Takes (fun _ => True) (fun _ => True) session (openFile fuel source path) _ _ :=
    takes_openFile calm (fun _ => trivial) source path
  obtain ⟨_, expansion, rfl, _⟩ := takes.done trivial ran
  rfl

/-- A file is included if it is found, is not one to be read only once, is not too deep and can be
read. -/
theorem filed_openReference (reference : Reference) :
    Filed session (openReference fuel directive reference) := by
  refine .get ?_
  dsimp only
  split
  · exact .throw _
  · exact .of_still (.report _ (by simp))
  next path found =>
    split
    · exact .of_still (.pure _)
    next fresh =>
      split
      · exact .of_still (.bind (.report _ (by simp)) fun _ => .pure _)
      next room =>
        split
        · exact .throw _
        · exact .of_still (.report _ (by simp))
        next source _ =>
          refine .of_ok fun ran => ?_
          obtain ⟨_, _, _, ⟨⟩, ran⟩ := bind_ok_iff.mp ran
          obtain ⟨_, _, _, traced, ran⟩ := bind_ok_iff.mp ran
          obtain ⟨_, rfl⟩ := lift_ok_iff.mp traced
          rw [record_of_openFile fuel ran]
          exact .includes ⟨_, _, _, path⟩ (by simpa [record] using fresh) (Nat.le_of_not_lt room)

theorem filed_handleInclude : Filed session (handleInclude fuel directive) := by
  have still : Still (includeOperand fuel directive) :=
    .of_linked (fun start => (linked_includeOperand (lawful_recorded start) fuel directive :
      Linked _ ((recorded start).lane.within 0) _ _)) id
  refine .behind still fun found _ => ?_
  cases found with
  | none => exact .of_still (.pure _)
  | some reference =>
    refine .behind (still_endLine fuel directive _) fun _ _ => ?_
    exact .before (filed_openReference fuel directive reference) fun _ => .pure _

theorem filed_handlePragma : Filed session (handlePragma fuel) := by
  refine .behind still_rawHead fun next _ => ?_
  split
  · refine .behind (still_takeRaw fuel) fun _ session => .before ?_ fun _ => .pure _
    refine Takes.modify ?_
    obtain ⟨options, includes, files⟩ := session
    cases files with
    | nil => exact .stays
    | cons file below => exact .marks file.path rfl
  · exact .of_still (.bind (still_skipLine fuel) fun _ => .pure _)

theorem filed_handle (quiet : Bool) (kind : Directive) :
    Filed session (handle fuel directive quiet kind) := by
  by_cases includes : kind = .include
  · subst includes
    exact filed_handleInclude fuel directive
  by_cases pragma : kind = .pragma
  · subst pragma
    exact filed_handlePragma fuel
  · exact .of_still (.of_linked (fun start =>
      (linked_handle_of_ne (lawful_recorded start) fuel includes
      pragma (fun _ => .inl rfl) quiet : Linked _ ((recorded start).lane.within 0) _ _)) And.right)

theorem filed_handleDirective : Filed session (handleDirective fuel) := by
  refine .behind (still_takeRaw fuel) fun _ _ => .behind still_rawHead fun name _ => ?_
  split
  · exact .of_still (.pure _)
  have still : Still isSkipping := fun start =>
    (linked_isSkipping (lawful_recorded start) fun _ _ => id :
      Linked _ ((recorded start).lane.within 0) _ _)
  refine .behind still fun quiet _ => ?_
  split
  · exact .of_still (still_passed fuel name quiet (by simp))
  split
  · exact .of_still (still_passed fuel name quiet (by simp))
  split
  · exact .of_still (still_skipLine fuel)
  · refine .behind (still_takeRaw fuel) fun _ _ => ?_
    exact .before (filed_handle fuel name quiet _) fun _ => still_endLine fuel name _

theorem filed_leaveFile : Filed session leaveFile := by
  refine .get ?_
  split
  · exact .of_still (.pure _)
  next file below opened =>
    have still : Still (reportOpen file.stream.head file.conditionals) :=
      fun _ => linked_reportOpen _ _
    refine .bind (still.ensures session) ?_
    rintro _ middle ⟨_, same⟩
    have left : FileStep session.options.maxIncludeDepth session.record
        { middle.record with paths := session.record.paths.tail, depth := middle.depth - 1 } :=
      same ▸ .leaves
    exact Takes.modify (by simpa [record, opened] using left)

theorem filed_proceed : Filed session (proceed fuel) := by
  cases files : session.files with
  | nil =>
    refine .of_ok fun ran => ?_
    rw [proceed_of_no_files fuel files] at ran
    cases ran
    exact .stays
  | cons file below =>
    have moves (kind : TokenStream.Move) : Still (moveFile fuel kind) :=
      fun start => linked_moveFile fuel (kept_recorded start) kind
    suffices Filed session (stepIn fuel file) from
      .of_ok fun ran => (this.done trivial (proceed_of_files fuel files ▸ ran)).2
    unfold stepIn
    split
    · exact .before filed_leaveFile fun _ => .pure _
    split
    · exact .before (filed_handleDirective fuel) fun _ => .pure _
    split
    · exact .of_still (.bind (moves _) fun _ => .pure _)
    · exact .of_still (.bind (moves _) fun _ =>
        .of_linked (fun start => linked_emit fuel (kept_recorded start)) And.right)

/-- **A step** does one thing with the record: if the limit on errors is reached, all files are
closed. -/
theorem filed_step : Filed session (step fuel) := by
  refine .of_ok fun ran => ?_
  rw [step_eq] at ran
  obtain ⟨_, middle, read, checked, ran⟩ := bind_ok_iff.mp ran
  rw [checkErrorLimit_eq] at checked
  split at checked
  · obtain rfl := of_stop checked
    cases ran
    exact .closes
  · cases checked
    exact ((filed_proceed fuel).done trivial ran).2

theorem handled_of_step {file : InputFile} {below : List InputFile} {token : Option Token}
    (opened : session.files = file :: below) (opens : file.stream.head.kind = .directive)
    (ran : step fuel session context = .ok (token, after) next)
    (goesOn : after.stopped = session.stopped) :
    handleDirective fuel session context = .ok ((), after) next := by
  rw [step_eq] at ran
  obtain ⟨_, middle, read, checked, ran⟩ := bind_ok_iff.mp ran
  rw [checkErrorLimit_eq] at checked
  split at checked
  next stops =>
    obtain rfl := of_stop checked
    cases ran
    simp [Session.stops, ← goesOn, closeFiles] at stops
  next =>
    cases checked
    rw [proceed_of_files fuel opened, stepIn_of_directive fuel opens] at ran
    obtain ⟨_, _, _, handled, ⟨⟩⟩ := bind_ok_iff.mp ran
    exact handled

theorem record_of_push {source : String}
    (ran : push fuel source path session context = .ok ((), after) next) :
    FileMove session.options.maxIncludeDepth session.record after.record := by
  obtain ⟨_, middle, read, opened, ran⟩ := bind_ok_iff.mp ran
  have opened := record_of_openFile fuel opened
  obtain ⟨_, _, _, looked, ran⟩ := bind_ok_iff.mp ran
  cases looked
  have one : FileMove session.options.maxIncludeDepth session.record middle.record := by
    rw [opened]
    exact .pushes [path]
  split at ran
  · obtain ⟨_, _, _, noted, ran⟩ := bind_ok_iff.mp ran
    cases noted
    split at ran
    · have both := record_of_openFile fuel ran
      have same : record { middle with started := true } = middle.record := rfl
      rw [same, opened] at both
      rw [both]
      exact .pushes [commandLineFile, path]
    · cases ran
      exact one
  · cases ran
    exact one

end Session

/-! ### Lines that say to read a file only once -/

/-- The tokens that the scanner of a file has left, where nothing is begun. -/
def InputFile.left (file : InputFile) : List Token :=
  match file.stream with
  | .expansion expansion =>
    match expansion.sources with
    | [.scanner scanner] => scanner.left
    | _ => []
  | _ => []

/-- Whether a file stands at a line `#pragma once`, and its lines are not skipped. -/
def InputFile.atPragmaOnce (file : InputFile) : Bool :=
  !file.isSkipping && file.directive? == some .pragma &&
    file.left.tail.head?.any fun operand => operand.isIdentifier && operand.lexeme == "once"

namespace Session

variable {session : Session} {line : Line} {frames : List Conditional} {name once : Token}
  {rest : List Token}

theorem takes_pragmaOnce (fuel : Nat)
    (stands : line.Stands frames (once :: rest) session) (goesOn : once.isIdentifier = true)
    (named : once.lexeme = "once") (ends : Terminated (once :: rest)) :
    Ensures session (handlePragma fuel) fun _ read => line.path ∈ read.onceOnly := by
  have firm : Footing.Firm (fun _ => True) (fun _ => True) fuel line.Stands :=
    line.firm trivial (fun _ _ _ _ => trivial) fuel
  obtain ⟨map, shown⟩ := firm.shows stands
  refine .head ?_
  rw [shown, isIdentifier_presume, lexeme_presume, goesOn, named]
  have inside : once.isEof = false := isEof_of_inside (goesOn_of_isIdentifier goesOn)
  refine .bind (takes_takeToken firm stands inside ends) ?_
  rintro _ read ⟨rfl, stands⟩
  obtain ⟨expansion, opened, _⟩ := stands.file
  refine .modifyThen (.pure ?_)
  rw [opened]
  exact List.mem_cons_self

theorem takes_onceLine (fuel : Nat) {mark : Token} {left : List Token}
    (stands : line.Stands frames
      (mark :: (name :: once :: left ++ line.ending :: line.rest)) session)
    (marks : mark.isEof = false) (active : Conditional.isSkipping frames = false)
    (pragma : name.directive? = some .pragma) (identifier : once.isIdentifier = true)
    (named : once.lexeme = "once")
    (within : ∀ token ∈ name :: once :: left, token.endsLine = false ∧ line.fits token.kind) :
    Ensures session (handleDirective fuel) fun _ read => line.path ∈ read.onceOnly := by
  obtain ⟨_, inside⟩ := List.forall_mem_cons.mp within
  have goesOn : ∀ token ∈ once :: left, token.endsLine = false :=
    fun token member => (inside token member).1
  have ends : Terminated (once :: left ++ line.ending :: line.rest) :=
    line.terminated.append fun token member => isEof_of_inside (goesOn token member)
  refine takes_handledLine (line.firm trivial (fun _ _ _ _ => trivial) fuel) line.remainder pragma
    (by simp [active]) stands marks goesOn fun map read stands => ?_
  refine .bind (takes_pragmaOnce fuel stands identifier named ends) ?_
  intro ending read recorded
  refine ((still_endLine fuel _ ending).ensures read).values fun _ after kept => ?_
  have same : after.onceOnly = read.onceOnly := congrArg FileRecord.onceOnly kept.2
  rwa [same]

end Session

namespace Run

variable {run next later : Run} {fuel : Nat}

theorem Goes.filed (goes : run.Goes next) :
    FileMove run.session.options.maxIncludeDepth run.session.record next.session.record := by
  cases goes with
  | push fuel source path pushed => exact Session.record_of_push fuel (of_push? pushed).1
  | step fuel stepped =>
    obtain ⟨⟨token, ran⟩, _⟩ := of_step? stepped
    exact .reads ((Session.filed_step fuel).done trivial ran).2
  | keep peeked => exact .reads .stays
  | close => exact .reads .closes

theorem Reached.depth_eq (reached : run.Reached) :
    run.session.depth = run.session.files.length := by
  suffices run.session.record.depth = run.session.record.paths.length by
    simpa [Session.record] using this
  induction reached with
  | created created =>
    obtain ⟨rfl, _⟩ := Session.of_create created
    rfl
  | goes _ goes counted => exact goes.filed.depth_eq counted

theorem not_included_again (once : path ∈ run.session.onceOnly)
    (leads : Relation.ReflTransGen Run.Goes run later) :
    path ∈ later.session.onceOnly ∧ ∃ added,
      later.session.inclusions.toList = run.session.inclusions.toList ++ added ∧
        ∀ inclusion ∈ added, inclusion.path ≠ path := by
  induction leads with
  | refl => exact ⟨once, [], by simp, by simp⟩
  | @tail middle last _ goes ih =>
    obtain ⟨once, added, grown, others⟩ := ih
    obtain ⟨more, grown', fresh⟩ := goes.filed.inclusions_eq
    refine ⟨goes.filed.mem_onceOnly once, added ++ more, ?_, ?_⟩
    · have grown' : last.session.inclusions.toList = middle.session.inclusions.toList ++ more :=
        grown'
      rw [grown', grown, List.append_assoc]
    · intro inclusion member
      rcases List.mem_append.mp member with before | new
      · exact others inclusion before
      · rintro rfl
        exact fresh inclusion new once

theorem leads_of_steps? {count : Nat} (stepped : run.steps? fuel count = some later) :
    Relation.ReflTransGen Run.Goes run later := by
  induction count generalizing run with
  | zero =>
    cases stepped
    exact .refl
  | succ count ih =>
    obtain ⟨middle, first, rest⟩ := Option.bind_eq_some_iff.mp stepped
    exact .head (.step fuel first) (ih rest)

theorem Reached.pragmaOnce (reached : run.Reached) {file : InputFile}
    (top : run.session.files.head? = some file) (marked : file.atPragmaOnce = true)
    (stepped : run.step? fuel = some next) (goesOn : next.session.stopped = run.session.stopped) :
    file.path ∈ next.session.onceOnly := by
  simp only [InputFile.atPragmaOnce, Bool.and_eq_true, Bool.not_eq_true', beq_iff_eq,
    Option.any_eq_true] at marked
  obtain ⟨⟨active, known⟩, once, second, identifier, named⟩ := marked
  have known : run.session.directive? = some .pragma := by
    rw [Session.directive?, top, Option.bind_some, known]
  obtain ⟨first, below, files, known, opens⟩ := Session.exists_file_of_directive? known
  obtain rfl : first = file := by simpa [files] using top
  obtain ⟨⟨token, ran⟩, _⟩ := of_step? stepped
  have handled := Session.handled_of_step fuel files opens ran goesOn
  obtain ⟨text, texts, here, _, _⟩ := List.forall₂_cons_left_iff.mp (files ▸ reached.sane.reads)
  obtain ⟨line, front, left, of, _, _, same, stands⟩ :=
    here.exists_line opens below run.session.includes
  have stands := stands run.session rfl files
  have behind : first.left = left ++ line.ending :: line.rest := by
    obtain ⟨expansion, opened, _, _, _, _, scanner, whole, _, sources, _, left⟩ := stands.file
    cases whole
    have lasts : first.stream.head.isEof = false := by simp [Token.isEof, opens]
    rw [lasts, if_neg Bool.false_ne_true] at left
    have stream : first.stream = .expansion expansion :=
      congrArg InputFile.stream (List.cons.inj (files.symm.trans opened)).1
    simp only [InputFile.left, stream, sources, left]
  rw [behind] at second
  rw [same] at known
  cases left with
  | nil => cases known
  | cons name left =>
    cases left with
    | nil =>
      cases second
      have ends := line.ends
      rw [goesOn_of_isIdentifier identifier] at ends
      cases ends
    | cons operand left =>
      cases second
      have takes := Session.takes_onceLine fuel stands (by simp [Token.isEof, opens]) active
        known identifier named of.within
      exact of.path ▸ (takes.done trivial handled).2

end Run

/-- **The stack of files.** Whatever is pushed, read, shown and closed, the depth is the number of
open files. A step opens no file, or includes one, which is put on record: that is not one to be
read only once, and with it the depth is at most one more than the limit. A line `#pragma once` that
is handled makes its file one to be read only once. From then on that file is not included again. -/
theorem file_stack_of_reached {run : Run} (reached : run.Reached) :
    run.session.depth = run.session.files.length ∧
    (∀ (fuel : Nat) (next : Run), run.step? fuel = some next →
      (next.session.inclusions = run.session.inclusions ∧
        next.session.files.map (·.path) <:+ run.session.files.map (·.path)) ∨
      ∃ inclusion : Inclusion, inclusion.path ∉ run.session.onceOnly ∧
        next.session.inclusions = run.session.inclusions.push inclusion ∧
        next.session.files.map (·.path) = inclusion.path :: run.session.files.map (·.path) ∧
        next.session.depth ≤ run.session.options.maxIncludeDepth + 1) ∧
    (∀ (fuel : Nat) (next : Run) (file : InputFile), run.session.files.head? = some file →
      file.atPragmaOnce = true → run.step? fuel = some next →
      next.session.stopped = run.session.stopped → file.path ∈ next.session.onceOnly) ∧
    ∀ (path : String) (later : Run), path ∈ run.session.onceOnly →
      Relation.ReflTransGen Run.Goes run later →
      path ∈ later.session.onceOnly ∧ ∃ added,
        later.session.inclusions.toList = run.session.inclusions.toList ++ added ∧
        ∀ inclusion ∈ added, inclusion.path ≠ path := by
  refine ⟨reached.depth_eq, fun fuel next stepped => ?_, fun fuel next file top marked stepped =>
    reached.pragmaOnce top marked stepped, fun path later => Run.not_included_again⟩
  obtain ⟨⟨token, ran⟩, _⟩ := Run.of_step? stepped
  exact ((Session.filed_step fuel).done trivial ran).2.opens

/-- A file that is to be read only once, and one without an end. -/
def MemoryFiles.nested : MemoryFiles where
  files := [("a.h", "#pragma once\n#include \"a.h\"\n"),
    ("b.h", "#include \"b.h\"\n#include \"a.h\"\n")]

/-- Both files are included, and a number of steps is taken. -/
def Run.nested? (count : Nat) : Option Run :=
  (Run.push? 40 "#include \"a.h\"\n#include \"b.h\"\n" "main.c"
    ⟨{ options := { maxIncludeDepth := 1 }, includes := MemoryFiles.nested.system }, {}, []⟩).bind
    (Run.steps? 40 count)

/-- Each file is included once, though both name themselves and one names the other. -/
theorem file_stack_of_reached_nested : ∃ run next later : Run, Run.nested? 1 = some run ∧
    run.Reached ∧ run.step? 40 = some next ∧ next.steps? 40 6 = some later ∧
    next.session.onceOnly = ["a.h"] ∧ later.session.depth = later.session.files.length ∧
    later.session.inclusions.toList.map (·.path) = ["a.h", "b.h"] ∧
    later.context.sink.diagnostics.toList.map (·.code) = [some "PPS-PP-0303"] ∧
    "a.h" ∈ next.session.onceOnly ∧ ∃ added,
      later.session.inclusions.toList = next.session.inclusions.toList ++ added ∧
      ∀ inclusion ∈ added, inclusion.path ≠ "a.h" := by
  obtain ⟨run, read, passes⟩ : ∃ run, Run.nested? 1 = some run ∧
      (run.session.files.head?.any (fun file => file.path == "a.h" && file.atPragmaOnce) &&
        (run.step? 40).any fun next => next.session.stopped == run.session.stopped &&
          next.session.onceOnly == ["a.h"] && (next.steps? 40 6).any fun later =>
            later.session.inclusions.toList.map (·.path) == ["a.h", "b.h"] &&
              later.context.sink.diagnostics.toList.map (·.code) == [some "PPS-PP-0303"]) = true :=
    (Option.any_eq_true _ _).mp (by decide +kernel)
  simp only [Bool.and_eq_true, Option.any_eq_true, beq_iff_eq] at passes
  obtain ⟨⟨file, top, named, marked⟩, next, stepped, ⟨goesOn, once⟩, later, steps, included,
    told⟩ :=
    passes
  obtain ⟨pushed, pushes, reads⟩ := Option.bind_eq_some_iff.mp read
  have created : Session.create { maxIncludeDepth := 1 } MemoryFiles.nested.system none =
      .ok ({ options := { maxIncludeDepth := 1 }, includes := MemoryFiles.nested.system }, {}) :=
        rfl
  have reached : run.Reached :=
    ((Run.Reached.created created).goes (.push 40 _ "main.c" pushes)).steps? reads
  have reached' : next.Reached := reached.goes (.step 40 stepped)
  obtain ⟨_, _, marks, _⟩ := file_stack_of_reached reached
  obtain ⟨_, _, _, again⟩ := file_stack_of_reached reached'
  obtain ⟨depth, _⟩ := file_stack_of_reached (reached'.steps? steps)
  have noted : "a.h" ∈ next.session.onceOnly := named ▸ marks 40 next file top marked stepped goesOn
  obtain ⟨_, added⟩ := again "a.h" later noted (Run.leads_of_steps? steps)
  exact ⟨run, next, later, read, reached, stepped, steps, once, depth, included, told, noted, added⟩

end Preproc
