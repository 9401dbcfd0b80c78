import Preproc.Proofs.Session.Nesting
import Preproc.Proofs.Source.Stretch

/-! # Steps and the text of a file

The stream of an open file is the expansion of a scanner on the ground, which has taken a part of
the text. The open conditionals are named by the lines of that part that are unmatched. One step of
a session keeps this, and makes of the table and of the conditionals what one line makes of them.

Main statement: `Session.takes_step`.
-/

namespace Preproc

open Engine (Grants)
open Session (Takes)
open Regime (upcoming)

/-! ### Files that are being read -/

/-- The tokens of a file, of which those that have been taken name the open conditionals. -/
def fileGround (tokens : List Token) (frames : List Conditional) : Ground where
  tokens
  taken front := NamedBy frames (unmatched front)
  goesOn named unmarked := by
    rw [unmatched_concat unmarked]
    exact named

/-- A file of which a part of the text has been read. -/
structure InputFile.Reads (file : InputFile) (text : String) : Prop where
  chained : Chained file.conditionals
  grounded : (fileGround (scanTokens file.path text) file.conditionals).Reads file.stream

variable {front tokens : List Token} {expansion : Expansion TokenStream}

theorem Ground.reads_of_at {ground : Ground} (here : expansion.At tokens)
    (origin : ∀ token ∈ expansion.origin, token.kind ≠ .directive)
    (split : ground.tokens = front ++ tokens) (before : ground.taken front)
    (behind : ∀ token ∈ tokens.head?, ground.taken (front ++ [token])) :
    ground.Reads (.expansion expansion) := by
  obtain ⟨token, rest, map, scanner, rfl, shown, sources, lenient, left⟩ := here
  refine ⟨expansion, rfl, origin, ?_⟩
  rw [shown, sources]
  have flat : ∀ stream ∈ ([] : List TokenStream), stream.Flat := by simp
  cases ended : token.isEof with
  | true =>
    rw [ended, if_pos rfl] at left
    have same : scanner.lookahead = token := (List.cons.inj left).1
    refine ⟨[], scanner, front, rfl,
      { flat, kept := Regime.streams_nil, lenient, split := left ▸ split, taken := before
        stuck := ?_, directive := ?_, ended := ?_ }⟩
    · intro stuck
      rw [Stuck, same, ended] at stuck
      cases stuck.2
    · intro opens
      rw [kind_presume, beq_iff_eq.mp ended] at opens
      cases opens
    · exact fun _ => ⟨rfl, same ▸ ended⟩
  | false =>
    rw [ended, if_neg Bool.false_ne_true] at left
    refine ⟨[], scanner, front ++ [token], rfl,
      { flat, kept := Regime.streams_nil, lenient, split := ?_, taken := behind token rfl
        stuck := ?_, directive := ?_, ended := ?_ }⟩
    · rw [split, left, List.append_assoc, List.singleton_append]
    · intro stuck
      rw [kind_presume]
      exact marked_concat.mp stuck.1
    · intro opens
      rw [kind_presume] at opens
      exact ⟨rfl, marked_concat.mpr opens⟩
    · simp [ended]

theorem Terminated.suffix (ends : Terminated (front ++ tokens))
    (nonempty : tokens ≠ []) : Terminated tokens := by
  induction front with
  | nil => exact ends
  | cons token front ih =>
    obtain ⟨next, rest, whole⟩ := List.exists_cons_of_ne_nil
      (List.append_ne_nil_of_right_ne_nil front nonempty)
    rw [List.cons_append, whole] at ends
    exact ih (whole ▸ ends.2)

theorem Terminated.exists_line (ends : Terminated tokens) :
    ∃ left ending rest, tokens = left ++ ending :: rest ∧
      (∀ token ∈ left, token.endsLine = false) ∧ ending.endsLine = true ∧
      Terminated (ending :: rest) := by
  induction tokens with
  | nil => exact ends.elim
  | cons token rest ih =>
    cases here : token.endsLine with
    | true => exact ⟨[], token, rest, rfl, by simp, here, ends⟩
    | false =>
      obtain ⟨left, ending, later, rfl, inside, last, ends⟩ :=
        ih (ends.tail (Session.isEof_of_inside here))
      exact ⟨token :: left, ending, later, rfl, List.forall_mem_cons.mpr ⟨here, inside⟩, last,
        ends⟩

theorem Lined.plain {left later : List Token} (lined : Lined false (left ++ later))
    (inside : ∀ token ∈ left, token.endsLine = false) :
    ∀ token ∈ left, token.kind ≠ .directive := by
  induction left with
  | nil => simp
  | cons token left ih =>
    obtain ⟨here, inside⟩ := List.forall_mem_cons.mp inside
    have goesOn : (token.kind == .newline) = false := by
      simp_all [Token.endsLine]
    obtain ⟨opens, rest⟩ := lined
    rw [goesOn] at rest
    exact List.forall_mem_cons.mpr ⟨fun directive => Bool.false_ne_true (opens directive),
      ih rest inside⟩

theorem Lined.behind {rest : List Token} {lineStart : Bool} {mark : Token}
    (lined : Lined lineStart (front ++ mark :: rest)) (marks : mark.kind = .directive) :
    Lined false rest := by
  induction front generalizing lineStart with
  | nil =>
    have rest := lined.2
    rw [marks] at rest
    exact rest
  | cons token front ih => exact ih lined.2

/-- The directive on the line at which an expansion stands, if its next token opens one. -/
def Expansion.directive? (expansion : Expansion TokenStream) : Option Directive :=
  match expansion.sources with
  | [.scanner source] =>
    if expansion.lookahead.kind = .directive then source.lookahead.directive? else none
  | _ => none

/-- The directive on the line at which the stream of a file stands. -/
def InputFile.directive? (file : InputFile) : Option Directive :=
  match file.stream with
  | .expansion expansion => expansion.directive?
  | _ => none

/-- A directive line of the text of a file, with what is taken of the text when it is met and with
what is on it after its `#`. -/
structure Session.Line.Of (line : Session.Line) (file : InputFile) (text : String)
    (front left : List Token) : Prop where
  path : line.path = file.path
  fits : line.fits = (· ≠ .directive)
  origin : ∀ token ∈ line.origin, token.kind ≠ .directive
  tokens : scanTokens file.path text = front ++ left ++ line.ending :: line.rest
  marked : Marked front
  named : NamedBy file.conditionals (unmatched front)
  within : ∀ token ∈ left, token.endsLine = false ∧ line.fits token.kind

namespace InputFile.Reads

variable {file : InputFile} {text : String}

theorem exists_line (reads : file.Reads text) (opens : file.stream.head.kind = .directive)
    (below : List InputFile) (includes : IncludeSystem) :
    ∃ (line : Session.Line) (front left : List Token), line.Of file text front left ∧
      line.below = below ∧ line.includes = includes ∧
      file.directive? = Session.lineDirective left ∧
      ∀ session : Session, session.includes = includes → session.files = file :: below →
        line.Stands file.conditionals (file.stream.head :: (left ++ line.ending :: line.rest))
          session := by
  obtain ⟨expansion, stream, origin, uppers, scanner, front, sources, read⟩ := reads.grounded
  rw [stream] at opens
  obtain ⟨rfl, marked⟩ := read.directive opens
  have split : scanTokens file.path text = front ++ scanner.left := read.split
  have ends : Terminated (front ++ scanner.left) := split ▸ terminated_scanTokens
  obtain ⟨left, ending, rest, whole, inside, last, ends⟩ :=
    (ends.suffix (by simp [Scanner.left])).exists_line
  have plain : ∀ token ∈ left, token.kind ≠ .directive := by
    have lined : Lined true (front ++ scanner.left) := split ▸ lined_scan file.path text
    obtain ⟨before, mark, rfl⟩ : ∃ before mark, front = before ++ [mark] := by
      rcases List.eq_nil_or_concat front with rfl | ⟨before, mark, rfl⟩
      · cases marked
      · exact ⟨before, mark, List.concat_eq_append⟩
    rw [List.append_assoc, List.singleton_append] at lined
    have behind := lined.behind (marked_concat.mp marked)
    rw [whole] at behind
    exact behind.plain inside
  refine ⟨⟨file.path, expansion.origin, below, includes, ending, rest, (· ≠ .directive), last,
    ends⟩,
    front, left, ⟨rfl, rfl, origin, ?_, marked, read.taken,
    fun token member => ⟨inside token member, plain token member⟩⟩, rfl, rfl, ?_, ?_⟩
  · rw [split, whole, List.append_assoc]
  · have first : scanner.lookahead.directive? = Session.lineDirective left := by
      cases left with
      | nil =>
        rw [(List.cons.inj whole).1, directive?_of_endsLine last]
        rfl
      | cons name left =>
        rw [(List.cons.inj whole).1]
        rfl
    change expansion.lookahead.kind = .directive at opens
    have below : expansion.sources = [.scanner scanner] := sources
    simp only [InputFile.directive?, stream, Expansion.directive?, below, opens, if_true, first]
  · intro session same files
    refine ⟨same, expansion, ?_, rfl, ?_⟩
    · rw [files, ← stream]
    · have shown : file.stream.head = expansion.lookahead := by
        rw [stream]
        rfl
      have goesOn : expansion.lookahead.isEof = false := by
        change expansion.lookahead.kind = .directive at opens
        simp [Token.isEof, opens]
      rw [shown]
      refine ⟨expansion.lookahead, left ++ ending :: rest, none, scanner, rfl, rfl, sources,
        read.lenient, ?_⟩
      rw [goesOn, if_neg Bool.false_ne_true, whole]

end InputFile.Reads

namespace Session.Line.Of

variable {line : Session.Line} {file : InputFile} {text : String} {front left : List Token}
  {frames : List Conditional}

theorem stretch (of : line.Of file text front left) : Stretch left := by
  refine ⟨fun token member => ?_, file.path, text, front, line.ending, line.rest, line.ends, ?_⟩
  · have within := of.within token member
    rwa [of.fits] at within
  · rw [of.tokens, List.append_assoc]

theorem past {read : Session} (of : line.Of file text front left)
    (chained : Chained file.conditionals) (turned : TurnedBy left file.conditionals frames)
    (past : line.Past frames read) :
    ∃ stream, read.files = ⟨file.path, stream, frames⟩ :: line.below ∧
      (InputFile.mk file.path stream frames).Reads text := by
  have plain : ∀ token ∈ left, token.kind ≠ .directive := fun token member => by
    have fits := (of.within token member).2
    rwa [of.fits] at fits
  have named : NamedBy frames (openersBy left (unmatched front)) := of.named.turnedBy turned
  have inside : NamedBy frames (unmatched (front ++ left)) :=
    unmatched_inside of.marked plain ▸ named
  have ended : NamedBy frames (unmatched (front ++ left ++ [line.ending])) := by
    rwa [unmatched_concat_of_endsLine line.ends]
  have reads {expansion : Expansion TokenStream} {before tokens : List Token}
      (origin : expansion.origin = line.origin) (here : expansion.At tokens)
      (split : scanTokens file.path text = before ++ tokens)
      (taken : NamedBy frames (unmatched before))
      (behind : ∀ token ∈ tokens.head?, NamedBy frames (unmatched (before ++ [token]))) :
      (InputFile.mk file.path (.expansion expansion) frames).Reads text :=
    ⟨chained.turnedBy turned, Ground.reads_of_at here (origin ▸ of.origin) split taken behind⟩
  rcases past with ⟨_, expansion, files, origin, here⟩ | ⟨_, _, expansion, files, origin, here⟩
  · refine ⟨_, of.path ▸ files, reads origin here of.tokens inside ?_⟩
    rintro _ ⟨⟩
    exact ended
  · refine ⟨_, of.path ▸ files, reads origin here ?_ ended ?_⟩
    · rw [of.tokens, List.append_assoc _ [line.ending], List.singleton_append]
    · intro token _
      have unmarked : ¬ Marked (front ++ left ++ [line.ending]) := fun marks =>
        Session.plain_of_endsLine line.ends (marked_concat.mp marks)
      rw [unmatched_concat unmarked]
      exact ended

end Session.Line.Of

/-! ### One step -/

theorem Engine.Runs.of_grants {α : Type} {table : MacroTable} {action : Engine α}
    {gives : α → Prop} (grants : Grants table True action gives) :
    Engine.Runs (fun _ => True) (·.table = table) action
      (fun _ next => next.table = table) gives := by
  constructor
  · intro context value next same ran
    obtain ⟨kept, _, holds⟩ := grants.done same ran
    exact ⟨kept, holds⟩
  · exact fun _ _ => trivial

/-- A macro whose body is a stretch of a line, up to places, and whose names are identifiers. -/
def Macro.Inscribed (definition : Macro) : Prop :=
  (∃ left, Stretch left ∧ NearTokens false left definition.body) ∧
    ∀ name ∈ definition.names, Source.Shape .identifier name.toList

theorem Stretch.inscribed (stretch : Stretch tokens) {definition : Macro}
    (taken : TakenFrom tokens definition) : definition.Inscribed := by
  obtain ⟨⟨left, suffix, near⟩, named⟩ := taken
  refine ⟨⟨left, stretch.suffix suffix, near⟩, fun name member => ?_⟩
  rcases named name member with rfl | ⟨token, among, identifier, rfl⟩
  · exact .identifier (by decide) (by decide) (List.all_eq_true.mp (by decide))
  · exact stretch.identifier among identifier

/-- What a step makes of the table: a line may edit it. -/
def MacroTable.Becomes (table table' : MacroTable) : Prop :=
  table' = table ∨ table.Edits Macro.Inscribed table'

/-- What a step makes of the open conditionals of the files, those of the file being read first. The
directive is the one on the line that is taken, if one is. -/
inductive FramesStep : (directive : Option Directive) →
    (frames frames' : List (List Conditional)) → Prop
  | stays {frames : List (List Conditional)} : FramesStep none frames frames
  | closes {directive : Option Directive} {frames : List (List Conditional)} :
      FramesStep directive frames []
  | leaves {top : List Conditional} {frames : List (List Conditional)} :
      FramesStep none (top :: frames) frames
  | opens {frames : List (List Conditional)} (count : Nat) :
      FramesStep none frames (.replicate count [] ++ frames)
  | turns {top top' : List Conditional} {frames : List (List Conditional)} {left : List Token}
      (turned : TurnedBy left top top') (count : Nat) :
      FramesStep (Session.lineDirective left) (top :: frames)
        (.replicate count [] ++ top' :: frames)

namespace Session

/-- The open conditionals of the files. -/
def frames (session : Session) : List (List Conditional) :=
  session.files.map (·.conditionals)

/-- The directive on the line at which the file being read stands. -/
def directive? (session : Session) : Option Directive :=
  session.files.head?.bind InputFile.directive?

theorem exists_file_of_directive? {session : Session} {directive : Directive}
    (known : session.directive? = some directive) : ∃ file below, session.files = file :: below ∧
      file.directive? = some directive ∧ file.stream.head.kind = .directive := by
  obtain ⟨file, first, known⟩ := Option.bind_eq_some_iff.mp known
  obtain ⟨below, files⟩ := List.head?_eq_some_iff.mp first
  refine ⟨file, below, files, known, ?_⟩
  unfold InputFile.directive? at known
  split at known
  next expansion stream =>
    unfold Expansion.directive? at known
    split at known
    · split at known
      next opens =>
        rw [stream]
        exact opens
      · cases known
    · cases known
  · cases known

theorem directive?_eq_none {session : Session} {file : InputFile} {below : List InputFile}
    (opened : session.files = file :: below) (plain : file.stream.head.kind ≠ .directive) :
    session.directive? = none := by
  refine Option.eq_none_iff_forall_ne_some.mpr fun directive known => ?_
  obtain ⟨_, _, files, _, opens⟩ := exists_file_of_directive? known
  rw [opened] at files
  cases files
  exact plain opens

def textOf (includes : IncludeSystem) (file : InputFile) : String :=
  match includes.read file.path with
  | .ok text => text
  | .error _ => ""

/-- The texts of the open files after a step: a file may have been included, or files may have been
left. -/
def textsFor (session after : Session) (texts : List String) : List String :=
  if session.files.length < after.files.length then
    (after.files.take 1).map (textOf session.includes) ++ texts
  else texts.drop (session.files.length - after.files.length)

/-- The texts of the files that a push opens after the source: what the options stand for comes
before the first one. -/
def textsBefore (session : Session) : List String :=
  if session.started || session.options.commandLine.isEmpty then []
  else [session.options.commandLine]

/-- What a step makes of the open files. -/
structure Steps (session : Session) (texts : List String) (after : Session) : Prop where
  includes : after.includes = session.includes
  reads : List.Forall₂ InputFile.Reads after.files (session.textsFor after texts)
  frames : FramesStep session.directive? session.frames after.frames

variable {session after : Session} {texts : List String} {file : InputFile}
  {below : List InputFile} {text : String}

theorem Steps.congr {checked : Session} (steps : checked.Steps texts after)
    (includes : checked.includes = session.includes) (files : checked.files = session.files) :
    session.Steps texts after := by
  refine ⟨steps.includes.trans includes, ?_, ?_⟩
  · have reads := steps.reads
    rwa [textsFor, files, includes] at reads
  · have frames := steps.frames
    rwa [directive?, Session.frames, files] at frames

section

variable (includes : after.includes = session.includes)

include includes

theorem Steps.closed (empty : after.files = [])
    (reads : List.Forall₂ InputFile.Reads session.files texts) : session.Steps texts after := by
  refine ⟨includes, ?_, ?_⟩
  · rw [empty, textsFor, empty, if_neg (by simp), List.length_nil, Nat.sub_zero, reads.length_eq,
      List.drop_length]
    exact .nil
  · rw [Session.frames, Session.frames, empty]
    exact .closes

variable (opened : session.files = file :: below)

include opened

theorem Steps.leaves (ended : file.stream.head.isEof = true) (rest : after.files = below)
    (reads : List.Forall₂ InputFile.Reads session.files texts) : session.Steps texts after := by
  rw [opened] at reads
  cases reads with
  | @cons _ text _ texts here reads =>
    refine ⟨includes, ?_, ?_⟩
    · rw [textsFor, opened, rest, if_neg (by simp)]
      simpa using reads
    · rw [directive?_eq_none opened (by simp [beq_iff_eq.mp ended]), Session.frames, Session.frames,
        opened, rest]
      exact .leaves

theorem Steps.goesOn {file' : InputFile} (rest : after.files = file' :: below)
    (reads : List.Forall₂ InputFile.Reads below texts) (here : file'.Reads text)
    (frames : FramesStep session.directive? session.frames after.frames) :
    session.Steps (text :: texts) after := by
  refine ⟨includes, ?_, frames⟩
  rw [textsFor, opened, rest, if_neg (by simp)]
  simpa using List.Forall₂.cons here reads

theorem Steps.moved {stream : TokenStream} (plain : file.stream.head.kind ≠ .directive)
    (rest : after.files = { file with stream } :: below)
    (reads : List.Forall₂ InputFile.Reads below texts)
    (here : InputFile.Reads { file with stream } text) : session.Steps (text :: texts) after := by
  refine .goesOn includes opened rest reads here ?_
  rw [directive?_eq_none opened plain, Session.frames, Session.frames, opened, rest]
  exact .stays

theorem Steps.includesFile {file' included : InputFile} {source : String}
    (rest : after.files = included :: file' :: below)
    (reads : List.Forall₂ InputFile.Reads below texts) (here : file'.Reads text)
    (found : session.includes.read included.path = .ok source) (new : included.Reads source)
    (frames : FramesStep session.directive? session.frames after.frames) :
    session.Steps (text :: texts) after := by
  refine ⟨includes, ?_, frames⟩
  rw [textsFor, opened, rest, if_pos (by simp)]
  refine .cons ?_ (.cons here reads)
  rw [textOf, found]
  exact new

end

theorem reads_of_start {path source : String}
    (origin : expansion.origin = none) (here : expansion.At (scanTokens path source)) :
    (InputFile.mk path (.expansion expansion) []).Reads source := by
  have unnamed : NamedBy [] (unmatched []) := .nil
  have split : scanTokens path source = [] ++ scanTokens path source := rfl
  exact ⟨trivial, Ground.reads_of_at here (by simp [origin]) split unnamed fun _ _ => .nil⟩

section Steps

variable {table : MacroTable} (fuel : Nat)

theorem takes_moveReads (plain : table.Plain) (opened : session.files = file :: below)
    (reads : file.Reads text) {kind : TokenStream.Move}
    (goesOn : kind = .advance → file.stream.head.kind ≠ .directive) :
    Abides (·.table = table) session (moveFile fuel kind) fun _ after =>
      after.includes = session.includes ∧ ∃ stream, after.files = { file with stream } :: below ∧
        InputFile.Reads { file with stream } text := by
  have moves := Ground.grants_move plain fuel kind reads.grounded goesOn
  unfold Abides Takes
  rw [moveFile_of_files opened]
  refine .bind (.of_grants moves) fun stream grounded => ?_
  exact .pure ⟨rfl, stream, rfl, reads.chained, grounded⟩

theorem takes_takeReads (plain : table.Plain) (opened : session.files = file :: below)
    (reads : file.Reads text) (goesOn : file.stream.head.kind ≠ .directive) :
    Abides (·.table = table) session (takeRaw fuel) fun _ after =>
      after.includes = session.includes ∧ ∃ stream, after.files = { file with stream } :: below ∧
        InputFile.Reads { file with stream } text :=
  .head (.bind (takes_moveReads fuel plain opened reads fun _ => goesOn) fun _ _ moved =>
    .pure moved)

theorem takes_checkErrorLimit {kept : Context → Prop} (ofTable : OfTable kept) :
    Abides kept session checkErrorLimit fun _ after =>
      after.includes = session.includes ∧ (after.files = session.files ∨ after.files = []) := by
  have looks : Abides kept session (getThe Context) fun _ read =>
      read = session := takes_engine ofTable (by rintro _ _ _ ⟨⟩; rfl)
  refine .get (.bind looks ?_)
  rintro context _ rfl
  split
  · refine .modifyThen ?_
    split
    · refine .head (.bind (takes_report ofTable _ _) ?_)
      rintro _ _ rfl
      exact .modify ⟨rfl, .inr rfl⟩
    · exact .modify ⟨rfl, .inr rfl⟩
  · exact .pure ⟨rfl, .inl rfl⟩

theorem takes_reportOpen {kept : Context → Prop} (ofTable : OfTable kept) (finish : Token)
    (frames : List Conditional) :
    Abides kept session (reportOpen finish frames) fun _ after => after = session := by
  induction frames with
  | nil => exact .pure rfl
  | cons frame frames ih =>
    refine .bind (takes_report ofTable _ _) ?_
    rintro _ _ rfl
    exact .pass (takes_report ofTable _ _) fun _ => ih

theorem takes_leaveFile {kept : Context → Prop} (ofTable : OfTable kept)
    (opened : session.files = file :: below) :
    Abides kept session leaveFile fun _ after =>
      after.includes = session.includes ∧ after.files = below := by
  refine .get ?_
  rw [opened]
  exact .pass (takes_reportOpen ofTable _ _) fun _ => .modify ⟨rfl, rfl⟩

theorem takes_handleReads (opened : session.files = file :: below) (reads : file.Reads text)
    (others : List.Forall₂ InputFile.Reads below texts)
    (opens : file.stream.head.kind = .directive) :
    Takes (fun _ => True) (·.table = table) session (handleDirective fuel)
      (fun _ next => table.Becomes next.table) fun _ after =>
        session.Steps (text :: texts) after := by
  obtain ⟨line, front, left, of, rfl, same, named, stands⟩ :=
    reads.exists_line opens below session.includes
  have stands := stands session rfl opened
  have marks : file.stream.head.isEof = false := by simp [Token.isEof, opens]
  constructor
  · rintro context ⟨⟨⟩, after⟩ next rfl ran
    have led := (takes_directive fuel stands marks of.within).done rfl ran
    refine ⟨led.1.imp_right (·.imp fun _ => of.stretch.inscribed), ?_⟩
    obtain ⟨frames', turned, gone⟩ := led.2
    have named : lineDirective left = session.directive? := by
      rw [directive?, opened]
      exact named.symm
    cases gone with
    | own past =>
      obtain ⟨stream, files, here⟩ := of.past reads.chained turned past
      refine .goesOn (past.includes.trans same) opened files others here ?_
      rw [← named, Session.frames, Session.frames, opened, files]
      exact .turns turned 0
    | @under included under past includes fresh files =>
      obtain ⟨stream, rest, here⟩ := of.past reads.chained turned past
      obtain ⟨source, expansion, found, stream', origin, start, unframed⟩ := fresh
      rw [rest] at files
      refine .includesFile (includes.trans same) opened files others here (same ▸ found) ?_ ?_
      · obtain ⟨path, stream, frames⟩ := included
        cases stream'
        cases unframed
        exact reads_of_start origin start
      · have whole : after.frames = [] :: frames' :: line.below.map (·.conditionals) := by
          rw [Session.frames, files, List.map_cons, unframed, List.map_cons]
        rw [← named, whole, Session.frames, opened]
        exact .turns turned 1
  · exact fun _ _ => trivial

/-- **One step** keeps the files being read. -/
theorem takes_step (plain : table.Plain)
    (reads : List.Forall₂ InputFile.Reads session.files texts) :
    Takes (fun _ => True) (·.table = table) session (step fuel)
      (fun _ next => table.Becomes next.table) fun _ after => session.Steps texts after := by
  have ofTable : OfTable (·.table = table) := fun context next same kept => kept.trans same
  refine .bind (takes_checkErrorLimit ofTable) ?_
  rintro _ checked ⟨includes, files⟩
  refine .get ?_
  split
  next empty => exact .get (.value (.closed includes empty reads) fun _ => .inl)
  next file below opened =>
    have same : checked.files = session.files := by
      rcases files with same | empty
      · exact same
      · simp [empty] at opened
    rw [← same, opened] at reads
    cases reads with
    | @cons _ text _ texts here others =>
      suffices Takes (fun _ => True) (·.table = table) checked _ _ fun _ after =>
          checked.Steps (text :: texts) after from
        this.values fun _ _ steps => steps.congr includes same
      dsimp only
      split
      next ended =>
        refine .bind (takes_leaveFile ofTable opened) ?_
        rintro _ after ⟨includes, rest⟩
        exact .value (.leaves includes opened ended rest (opened ▸ .cons here others)) fun _ => .inl
      split
      next opens =>
        refine .bind (takes_handleReads fuel opened here others (by simpa using opens)) ?_
        exact fun _ after steps => .pure steps
      next goesOn =>
        have plainHead : file.stream.head.kind ≠ .directive := by simpa using goesOn
        split
        · refine .bind (takes_moveReads fuel plain opened here fun _ => plainHead) ?_
          rintro _ after ⟨includes, stream, rest, here⟩
          exact .value (.moved includes opened plainHead rest others here) fun _ => .inl
        · refine .bind (takes_moveReads fuel plain opened here (by rintro ⟨⟩)) ?_
          rintro _ settled ⟨includes, stream, rest, here⟩
          refine .head ?_
          split
          · exact .value (.moved includes opened plainHead rest others here) fun _ => .inl
          · next inside =>
            have settledHead : stream.head.kind ≠ .directive := by
              have shown : upcoming settled = stream.head := by rw [upcoming, rest]
              simp_all
            refine .bind (takes_takeReads fuel plain rest here settledHead) ?_
            rintro token after ⟨again, stream, rest, here⟩
            exact .value (.moved (again.trans includes) opened plainHead rest others here) fun _ =>
              .inl

theorem takes_push (source path : String)
    (reads : List.Forall₂ InputFile.Reads session.files texts) :
    Abides (·.table = table) session (push fuel source path) fun _ after =>
      List.Forall₂ InputFile.Reads after.files (session.textsBefore ++ source :: texts) ∧
        ∃ count, after.frames = .replicate count [] ++ session.frames := by
  have ofTable : OfTable (·.table = table) := fun context next same kept => kept.trans same
  refine .bind (takes_openFile ofTable.calm (fun _ => trivial) source path) ?_
  rintro _ _ ⟨expansion, rfl, origin, here⟩
  have reads := List.Forall₂.cons (reads_of_start origin here) reads
  refine .get ?_
  rw [textsBefore]
  cases session.started with
  | true => exact .pure ⟨reads, 1, rfl⟩
  | false =>
    refine .modifyThen ?_
    dsimp only
    cases session.options.commandLine.isEmpty with
    | true => exact .pure ⟨reads, 1, rfl⟩
    | false =>
      apply (takes_openFile ofTable.calm (fun _ => trivial) _ commandLineFile).values
      rintro _ _ ⟨first, rfl, origin, here⟩
      exact ⟨.cons (reads_of_start origin here) reads, 2, rfl⟩

end Steps

end Session

end Preproc
