import Preproc.Proofs.Macro.Table
import Preproc.Proofs.Session.FileText
import Preproc.Proofs.Session.Visited

/-! # Runs

A session is created, sources are pushed onto it, and it is read step by step: `Run.Reached` are the
states that this leads to, each with the texts of the open files. What one step keeps holds in all
of them.

Main statements: `Run.Goes.advances`, `Run.Reached.sane` and `directive_takes_own_line`.
-/

namespace Preproc

open Regime (upcoming)

/-- A session between two steps, with its context and the texts of its files. -/
structure Run where
  session : Session
  context : Context
  texts : List String

namespace Run

def push? (fuel : Nat) (source path : String) (run : Run) : Option Run :=
  match Session.push fuel source path run.session run.context with
  | .ok (_, after) next => some ⟨after, next, run.session.textsBefore ++ source :: run.texts⟩
  | .error _ _ => none

/-- One step is taken. -/
def step? (fuel : Nat) (run : Run) : Option Run :=
  match Session.step fuel run.session run.context with
  | .ok (_, after) next => some ⟨after, next, run.session.textsFor after run.texts⟩
  | .error _ _ => none

/-- A number of steps is taken. -/
def steps? (fuel : Nat) : (count : Nat) → Run → Option Run
  | 0, run => some run
  | count + 1, run => (run.step? fuel).bind (steps? fuel count)

/-- A source is pushed onto a session without options, and a number of steps is taken. -/
def reading? (fuel count : Nat) (source : String) : Option Run :=
  (push? fuel source "main.c" ⟨{ options := {}, includes := default }, {}, []⟩).bind
    (steps? fuel count)

/-- One thing that is done with a session. What is read of it is read step by step; a token that was
read may be kept to be shown. -/
inductive Goes (run : Run) : Run → Prop
  | push {next : Run} (fuel : Nat) (source path : String)
      (pushed : run.push? fuel source path = some next) : Goes run next
  | step {next : Run} (fuel : Nat) (stepped : run.step? fuel = some next) : Goes run next
  | keep (peeked : Option Token) : Goes run { run with session := { run.session with peeked } }
  | close : Goes run { run with session := run.session.closeFiles, texts := [] }

/-- What a session that was created leads to. -/
inductive Reached : Run → Prop
  | created {options : Options} {includes : IncludeSystem} {supplied : Option Sink}
      {session : Session} {context : Context}
      (created : Session.create options includes supplied = .ok (session, context)) :
      Reached ⟨session, context, []⟩
  | goes {run next : Run} (reached : Reached run) (goes : run.Goes next) : Reached next

/-- What holds between two steps: no body of a macro opens a directive, and all files are read on.
-/
structure Sane (run : Run) : Prop where
  plain : run.context.table.Plain
  reads : List.Forall₂ InputFile.Reads run.session.files run.texts

variable {run next : Run} {fuel : Nat}

theorem Sane.exists_text (sane : run.Sane) {file : InputFile} (member : file ∈ run.session.files) :
    ∃ text, file.Reads text := by
  have reads := sane.reads
  generalize run.session.files = files at member reads
  generalize run.texts = texts at reads
  induction reads with
  | nil => cases member
  | cons here _ ih =>
    rcases List.mem_cons.mp member with rfl | later
    · exact ⟨_, here⟩
    · exact ih later

theorem of_push? {source path : String} (pushed : run.push? fuel source path = some next) :
    Session.push fuel source path run.session run.context = .ok ((), next.session) next.context ∧
      next.texts = run.session.textsBefore ++ source :: run.texts := by
  unfold push? at pushed
  split at pushed
  next _ after context ran =>
    cases pushed
    exact ⟨ran, rfl⟩
  · cases pushed

theorem of_step? (stepped : run.step? fuel = some next) :
    (∃ token, Session.step fuel run.session run.context = .ok (token, next.session) next.context) ∧
      next.texts = run.session.textsFor next.session run.texts := by
  unfold step? at stepped
  split at stepped
  next token after context ran =>
    cases stepped
    exact ⟨⟨token, ran⟩, rfl⟩
  · cases stepped

end Run

theorem MacroTable.Plain.initial : MacroTable.initial.Plain := by
  intro entry member
  have empty : entry.definition.body = [] := by
    revert member entry
    decide
  simp [Regime.undirected, empty]

theorem MacroTable.Plain.edits {table table' : MacroTable} (plain : table.Plain)
    (edits : table.Becomes table') : table'.Plain := by
  rcases edits with rfl | edits
  · exact plain
  · cases edits with
    | define given free =>
      obtain ⟨⟨⟨left, ⟨fitting, _⟩, near⟩, _⟩, _⟩ := given
      have fitting : Fitting (· ≠ .directive) left := fitting
      intro entry member
      rcases mem_of_mem_insert member with rfl | among
      · exact fun token inBody => (fitting.near near token inBody).2
      · exact plain entry among
    | undefine free => exact fun entry member => plain entry (List.mem_of_mem_filter member)

namespace Run

variable {run next : Run} {fuel : Nat}

theorem Sane.step? (sane : run.Sane) (stepped : run.step? fuel = some next) :
    run.context.table.Becomes next.context.table ∧
      List.Forall₂ InputFile.Reads next.session.files next.texts ∧
      FramesStep run.session.directive? run.session.frames next.session.frames := by
  obtain ⟨⟨token, ran⟩, texts⟩ := of_step? stepped
  obtain ⟨becomes, steps⟩ := (Session.takes_step fuel sane.plain sane.reads).done rfl ran
  exact ⟨becomes, texts ▸ steps.reads, steps.frames⟩

/-- **One thing done** edits the table line by line, turns the conditionals line by line, and keeps
what holds between two steps. A line is taken by a step alone. -/
theorem Goes.advances (goes : run.Goes next) (sane : run.Sane) :
    run.context.table.Becomes next.context.table ∧
      List.Forall₂ InputFile.Reads next.session.files next.texts ∧
      (FramesStep none run.session.frames next.session.frames ∨
        (∃ fuel, run.step? fuel = some next) ∧
          FramesStep run.session.directive? run.session.frames next.session.frames) := by
  cases goes with
  | push fuel source path pushed =>
    obtain ⟨ran, texts⟩ := of_push? pushed
    obtain ⟨same, reads, count, frames⟩ :=
      (Session.takes_push fuel source path sane.reads).done rfl ran
    exact ⟨.inl same, texts ▸ reads, .inl (frames ▸ .opens count)⟩
  | step fuel stepped =>
    obtain ⟨becomes, reads, frames⟩ := sane.step? stepped
    exact ⟨becomes, reads, .inr ⟨⟨fuel, stepped⟩, frames⟩⟩
  | keep peeked => exact ⟨.inl rfl, sane.reads, .inl .stays⟩
  | close => exact ⟨.inl rfl, .nil, .inl .closes⟩

/-- What holds between two steps holds in every run. -/
theorem Reached.sane (reached : run.Reached) : run.Sane := by
  induction reached with
  | created created =>
    obtain ⟨rfl, table⟩ := Session.of_create created
    exact ⟨table ▸ .initial, .nil⟩
  | goes _ goes sane =>
    obtain ⟨edits, reads, _⟩ := goes.advances sane
    exact ⟨sane.plain.edits edits, reads⟩

theorem Reached.steps? {count : Nat} (reached : run.Reached)
    (stepped : run.steps? fuel count = some next) : next.Reached := by
  induction count generalizing run with
  | zero =>
    cases stepped
    exact reached
  | succ count ih =>
    obtain ⟨middle, first, later⟩ := Option.bind_eq_some_iff.mp stepped
    exact ih (reached.goes (.step fuel first)) later

theorem reached_of_reading? {count : Nat} {source : String}
    (read : reading? fuel count source = some run) : run.Reached := by
  obtain ⟨pushed, pushes, steps⟩ := Option.bind_eq_some_iff.mp read
  have created : Session.create {} default none =
    .ok ({ options := {}, includes := default }, {}) :=
    rfl
  exact ((Reached.created created).goes (.push fuel source "main.c" pushes)).steps? steps

variable {session after : Session} {context next : Context} {texts : List String}

theorem push?_of_ok {source path : String}
    (ran : Session.push fuel source path session context = .ok ((), after) next) :
    push? fuel source path ⟨session, context, texts⟩ =
      some ⟨after, next, session.textsBefore ++ source :: texts⟩ := by
  simp only [push?, ran]

theorem step?_of_ok {given : Option Token}
    (ran : Session.step fuel session context = .ok (given, after) next) :
    step? fuel ⟨session, context, texts⟩ = some ⟨after, next, session.textsFor after texts⟩ := by
  simp only [step?, ran]

/-- The states that a session leads to are those of runs. -/
theorem exists_reached (arises : session.Arises context) :
    ∃ texts, Reached ⟨session, context, texts⟩ := by
  induction arises with
  | created created => exact ⟨[], .created created⟩
  | push _ ran reached =>
    obtain ⟨texts, reached⟩ := reached
    exact ⟨_, reached.goes (.push _ _ _ (push?_of_ok ran))⟩
  | step _ ran reached =>
    obtain ⟨texts, reached⟩ := reached
    exact ⟨_, reached.goes (.step _ (step?_of_ok ran))⟩
  | shown _ ran reached =>
    obtain ⟨texts, reached⟩ := reached
    exact ⟨_, (reached.goes (.step _ (step?_of_ok ran))).goes (.keep _)⟩
  | taken _ reached =>
    obtain ⟨texts, reached⟩ := reached
    exact ⟨texts, reached.goes (.keep none)⟩
  | close _ reached =>
    obtain ⟨texts, reached⟩ := reached
    exact ⟨[], reached.goes .close⟩

end Run

/-- **A directive takes exactly its own line.** A file of a run whose next token opens a directive
stands on the line of that token in its text. Wherever a file stands on such a line, whatever the
table is, which conditionals are open and what else is on the line: when the directive has been
handled, the file stands at the end of the line or, if that was taken, behind it. Only an included
file may be on top of it, which stands at its beginning. -/
theorem directive_takes_own_line :
    (∀ (run : Run), run.Reached → ∀ (file : InputFile) (text : String) (below : List InputFile)
      (texts : List String), run.session.files = file :: below → run.texts = text :: texts →
      file.stream.head.kind = .directive → ∃ (line : Session.Line) (front left : List Token),
        line.Of file text front left ∧ line.below = below ∧
        line.Stands file.conditionals (file.stream.head :: (left ++ line.ending :: line.rest))
          run.session) ∧
    ∀ (line : Session.Line) (frames : List Conditional) (mark : Token) (left : List Token)
      (session after : Session) (context next : Context) (fuel : Nat), mark.kind = .directive →
      (∀ token ∈ left, token.endsLine = false) →
      line.Stands frames (mark :: (left ++ line.ending :: line.rest)) session →
      Session.handleDirective fuel session context = .ok ((), after) next →
      ∃ frames', line.Left frames' after := by
  constructor
  · intro run reached file text below texts opened named opens
    have reads := reached.sane.reads
    rw [opened, named] at reads
    cases reads with
    | cons here others =>
      obtain ⟨line, front, left, of, same, _, _, stands⟩ :=
        here.exists_line opens below run.session.includes
      exact ⟨line, front, left, of, same, stands run.session rfl opened⟩
  · intro line frames mark left session after context next fuel marks inside stands ran
    -- Which kinds of tokens may be on the line does not matter here.
    let any : Session.Line := { line with fits := fun _ => True }
    have stands : any.Stands frames (mark :: (left ++ any.ending :: any.rest)) session :=
      ⟨stands.includes, stands.file⟩
    have takes : Session.Takes (fun _ => True) (· = context) session (Session.handleDirective fuel)
        _ _ := Session.takes_directive fuel stands
          (by simp [Token.isEof, marks]) fun token member =>
          ⟨inside token member, trivial⟩
    have past {frames : List Conditional} {read : Session} (past : any.Past frames read) :
        line.Past frames read :=
      past.imp (fun atEnd => ⟨atEnd.includes, atEnd.file⟩)
        (And.imp_right fun behind => ⟨behind.includes, behind.file⟩)
    obtain ⟨_, frames', _, left⟩ := takes.done rfl ran
    cases left with
    | own own => exact ⟨frames', .own (past own)⟩
    | under under includes fresh files => exact ⟨frames', .under (past under) includes fresh files⟩

/-- A call that is never closed ends with the line of its conditional. -/
theorem directive_takes_own_line_unclosed : ∃ (run : Run) (after : Session) (next : Context),
    Run.reading? 30 1 "#define F(x)\n#if F(\nx" = some run ∧ run.Reached ∧
      (upcoming run.session).kind = .directive ∧
      Session.handleDirective 30 run.session run.context = .ok ((), after) next ∧
      (upcoming after).lexeme = "x" ∧ ∃ (line : Session.Line) (frames : List Conditional),
        line.Left frames after := by
  obtain ⟨run, reading, passes⟩ : ∃ run,
      Run.reading? 30 1 "#define F(x)\n#if F(\nx" = some run ∧
        (!run.session.files.isEmpty && (upcoming run.session).kind == .directive &&
          Engine.passes (fun found => (upcoming found.2).lexeme == "x")
            (Session.handleDirective 30 run.session run.context)) = true :=
    (Option.any_eq_true _ _).mp (by decide +kernel)
  simp only [Bool.and_eq_true, beq_iff_eq] at passes
  obtain ⟨⟨nonempty, opens⟩, passes⟩ := passes
  obtain ⟨⟨_, after⟩, next, handled, shown⟩ := Engine.exists_ok_of_check passes
  have reached := Run.reached_of_reading? reading
  refine ⟨run, after, next, reading, reached, opens, handled, by simpa using shown, ?_⟩
  have reads := reached.sane.reads
  cases files : run.session.files with
  | nil => simp [files] at nonempty
  | cons file below =>
    obtain ⟨text, texts, here, others, named⟩ := List.forall₂_cons_left_iff.mp (files ▸ reads)
    obtain ⟨standing, taking⟩ := directive_takes_own_line
    have opens : file.stream.head.kind = .directive := by simpa [upcoming, files] using opens
    obtain ⟨line, front, left, of, _, stands⟩ :=
      standing run reached file text below texts files named opens
    obtain ⟨frames, gone⟩ := taking line _ _ left _ _ _ _ 30 opens
      (fun token member => (of.within token member).1) stands handled
    exact ⟨line, frames, gone⟩

end Preproc
