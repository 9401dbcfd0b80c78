import Preproc.Proofs.Session.Truncate

/-! # Warnings as errors

A run without a limit on errors does not look at what was told before, nor at how severe it was. If
warnings are taken for errors, then the same notices are told at the same places, and the warnings
among the diagnostics become errors. The counters of a sink tell how many errors and warnings it has
recorded, after each single notice.

Main statement: `warnAsError_changes_severities`.
-/

namespace Preproc

/-- The severity when warnings are taken for errors. -/
def Severity.promoted : Severity → Severity
  | .warning => .error
  | severity => severity

/-- The diagnostic when warnings are taken for errors. -/
def Diagnostic.promoted (diagnostic : Diagnostic) : Diagnostic :=
  { diagnostic with severity := diagnostic.severity.promoted }

/-- A sink whose counters tell what it has recorded. -/
structure Sink.Tallied (sink : Sink) : Prop where
  errors : sink.errorCount = sink.diagnostics.toList.countP (·.severity == .error)
  warnings : sink.warningCount = sink.diagnostics.toList.countP (·.severity == .warning)

namespace Sink

/-- The sink that has recorded nothing. -/
def fresh (severe : Bool) : Sink :=
  { warnAsError := severe }

theorem tallied_fresh (severe : Bool) : (fresh severe).Tallied :=
  ⟨rfl, rfl⟩

theorem Tallied.report {sink : Sink} (tallied : sink.Tallied) (place : Location) (notice : Notice) :
    (sink.report place notice).Tallied := by
  unfold Sink.report record
  constructor
  · simp only [Array.toList_push, List.countP_append, List.countP_singleton, tallied.errors]
  · simp only [Array.toList_push, List.countP_append, List.countP_singleton, tallied.warnings]

theorem Tallied.reportAll {sink : Sink} (tallied : sink.Tallied) (told : List (Location × Notice)) :
    (sink.reportAll told).Tallied := by
  induction told generalizing sink with
  | nil => exact tallied
  | cons item told ih => exact ih (tallied.report item.1 item.2)

/-- A sink that takes warnings for errors, beside one that does not. -/
structure Promotes (lax severe : Sink) : Prop where
  asWarning : lax.warnAsError = false
  asError : severe.warnAsError = true
  diagnostics : severe.diagnostics.toList = lax.diagnostics.toList.map Diagnostic.promoted

theorem Promotes.report {lax severe : Sink} (promotes : lax.Promotes severe) (place : Location)
    (notice : Notice) : (lax.report place notice).Promotes (severe.report place notice) := by
  have promoted : severe.diagnosticOf place notice =
      (lax.diagnosticOf place notice).promoted := by
    unfold diagnosticOf Diagnostic.promoted severityOf
    rw [promotes.asWarning, promotes.asError]
    generalize notice.severity = severity
    cases severity <;> rfl
  refine ⟨promotes.asWarning, promotes.asError, ?_⟩
  unfold Sink.report record
  simp only [Array.toList_push, List.map_append, List.map_singleton, promotes.diagnostics, promoted]

theorem Promotes.reportAll {lax severe : Sink} (promotes : lax.Promotes severe)
    (told : List (Location × Notice)) : (lax.reportAll told).Promotes (severe.reportAll told) := by
  induction told generalizing lax severe with
  | nil => exact promotes
  | cons item told ih => exact ih (promotes.report item.1 item.2)

theorem promotes_fresh : (fresh false).Promotes (fresh true) :=
  ⟨rfl, rfl, rfl⟩

end Sink

namespace Session

/-- A session with the options of another one, beside the same one with severities of its own and
without a limit on errors. -/
def unlimited (start : Session) (severe : Bool) : Pairing := fun session session' =>
  session.options = start.options ∧ session' = session.under 0 severe

theorem Blind.linked {α : Type} {action : SessionM α} (blind : Blind action) (start : Session)
    (severe : Bool) : Linked .any (start.unlimited severe) action := by
  refine .of_echoes ?_
  rintro session _ ⟨options, rfl⟩ context context' ⟨value, after⟩ next _ same ran _
  obtain ⟨keeps, again⟩ := blind session context value after next ran
  obtain ⟨next', ran', echo⟩ := again 0 severe context' same
  exact ⟨_, next', ran', echo, trivial, rfl, keeps.options.trans options, rfl⟩

section

variable {start : Session} (free : start.options.errorLimit = 0) (severe : Bool) (fuel : Nat)

include free

/-- A step stops for no number of errors, so it does not look at severities. -/
theorem linked_step : Linked .any (start.unlimited severe) (step fuel) := by
  have goesOn {session : Session} (free : session.options.errorLimit = 0) (context : Context) :
      stops session context = false := by simp [stops, free]
  refine .of_echoes ?_
  rintro session _ ⟨options, rfl⟩ context context' ⟨value, after⟩ next _ same ran _
  have ran := (step_of_goesOn (goesOn (options ▸ free) context)).mp ran
  have free' : (session.under 0 severe).options.errorLimit = 0 := rfl
  obtain ⟨after', next', ran', echo, fit, paired⟩ :=
    ((blind_proceed fuel).linked start severe).run ⟨options, rfl⟩ trivial same ran
  exact ⟨(value, after'), next', (step_of_goesOn (goesOn free' context')).mpr ran', echo, fit, rfl,
    paired⟩

theorem linked_readFresh (bound : Nat) :
    Linked .any (start.unlimited severe) (readFresh fuel bound) := by
  induction bound with
  | zero => exact .throw _
  | succ bound ih =>
    refine .bind (linked_step free severe fuel) fun given => ?_
    cases given with
    | some token => exact .idle
    | none => exact ih

theorem linked_read : Linked .any (start.unlimited severe) (read fuel) := by
  refine .of_echoes ?_
  rintro session _ ⟨options, rfl⟩
  have same : (session.under 0 severe).peeked = session.peeked := rfl
  cases shown : session.peeked with
  | some token =>
    intro context context' _ _ _ table ran _
    rw [read_of_peeked fuel context shown] at ran
    cases ran
    exact ⟨_, context', read_of_peeked fuel context' (same.trans shown), .refl table, trivial, rfl,
      options, rfl⟩
  | none =>
    rw [read_of_unpeeked fuel shown, read_of_unpeeked fuel (same.trans shown)]
    exact (linked_readFresh free severe fuel fuel).echoes ⟨options, rfl⟩

/-- **Reading to the end** does not look at severities. -/
theorem linked_readAll (bound : Nat) :
    Linked .any (start.unlimited severe) (readAll fuel bound) := by
  induction bound with
  | zero => exact .throw _
  | succ bound ih =>
    refine .bind (linked_read free severe fuel) fun token => ?_
    split
    · exact .idle
    · exact .bind ih fun _ => .idle

end

end Session

section Run

open Session (Visits)

variable {fuel : Nat} {options : Options} {includes : IncludeSystem} {source file : String}

/-- A result beside that of a run in which warnings are taken for errors. -/
structure Result.Promotes (lax severe : Result) : Prop where
  tokens : severe.tokens = lax.tokens
  inclusions : severe.inclusions = lax.inclusions
  macros : severe.macros = lax.macros
  diagnostics : severe.diagnostics = lax.diagnostics.map Diagnostic.promoted

/-- The result of a run in which some notices were told. -/
def Result.telling (tokens : List Token) (inclusions : List Inclusion) (macros : List String)
    (format : DiagnosticFormat) (told : List (Location × Notice)) (severe : Bool) : Result where
  tokens
  diagnostics := ((Sink.fresh severe).reportAll told).diagnostics.toList
  inclusions
  macros
  format

theorem exists_telling (unlimited : options.errorLimit = 0) {severe : Bool} {result : Result}
    {context : Context} (ran : preprocessWithin fuel { options with warnAsError := severe } includes
      source file = .ok result context) :
    ∃ tell : Bool → Result, result = tell severe ∧ (tell false).Promotes (tell true) ∧
      ∀ severe', ∃ context', preprocessWithin fuel { options with warnAsError := severe' } includes
        source file = .ok (tell severe') context' := by
  obtain ⟨tokens, session, middle, opened, after, read, same⟩ := of_preprocessWithin ran
  let start : Session := { options := { options with warnAsError := severe }, includes }
  let other : Options := { options with warnAsError := !severe }
  have start' : start.under 0 (!severe) = { options := other, includes } := by
    simp only [start, other, Session.under, unlimited]
  have tables : other.context.table = start.options.context.table := rfl
  have pushes := (Session.blind_push fuel source file).linked start (!severe)
  have reads : Session.Linked .any (start.unlimited !severe) (Session.readAll fuel fuel) :=
    Session.linked_readAll unlimited _ fuel fuel
  obtain ⟨_, middle', opened', echo, _, paired⟩ :=
    pushes.run ⟨rfl, rfl⟩ trivial tables opened
  obtain ⟨_, last, read', echo', _, _, rfl⟩ := reads.run paired trivial echo.table read
  obtain ⟨told, hears, heard⟩ := (echo.trans echo').told
  have sink : context.sink = (Sink.fresh severe).reportAll told := hears.sink
  have sink' : last.sink = (Sink.fresh !severe).reportAll told := heard.sink
  refine ⟨.telling tokens after.inclusions.toList
    (context.table.describe false) options.format told,
    ?_, ⟨rfl, rfl, rfl, (Sink.promotes_fresh.reportAll told).diagnostics⟩, fun severe' => ?_⟩
  · rw [same, Result.gather, sink]
    rfl
  by_cases as : severe' = severe
  · subst as
    refine ⟨context, ran.trans ?_⟩
    rw [same, Result.gather, sink]
    rfl
  · obtain rfl := Bool.eq_not_of_ne as
    rw [start'] at opened'
    refine ⟨last, (preprocessWithin_of opened' read').trans ?_⟩
    rw [Result.gather, echo'.table, sink']
    rfl

theorem exists_told_of_visits (unlimited : options.errorLimit = 0) {severe : Bool}
    {session : Session} {context : Context}
    (visited :
      Visits fuel { options with warnAsError := severe } includes source file session context) :
    session.options.errorLimit = 0 ∧ ∃ told, context.sink = (Sink.fresh severe).reportAll told := by
  induction visited with
  | opened ran =>
    obtain ⟨_, _, _, echo, _, kept, _⟩ :=
      ((Session.blind_push fuel source file).linked _ severe).run ⟨rfl, rfl⟩ trivial rfl ran
    obtain ⟨told, hears, _⟩ := echo.told
    exact ⟨by rw [kept, unlimited], told, hears.sink⟩
  | step _ ran ih =>
    obtain ⟨unlimited, told, sink⟩ := ih
    obtain ⟨_, _, _, echo, _, kept, _⟩ :=
      (Session.linked_step unlimited severe fuel).run ⟨rfl, rfl⟩ trivial rfl ran
    obtain ⟨told', hears, _⟩ := echo.told
    refine ⟨by rw [kept, unlimited], told ++ told', ?_⟩
    rw [hears.sink, sink, Sink.reportAll_append]

/-- **Warnings as errors change severities only.** Without a limit on errors the run that takes
warnings for errors ends where the other does, with the same tokens, inclusions and macros, and with
the same diagnostics once warnings are replaced by errors. In every state that either run visits,
the sink was told of notices one by one, and after each of them its counters tell what it has
recorded. -/
theorem warnAsError_changes_severities (unlimited : options.errorLimit = 0) :
    (∀ lax context,
      preprocessWithin fuel { options with warnAsError := false } includes source file =
        .ok lax context → ∃ severe context',
      preprocessWithin fuel { options with warnAsError := true } includes source file =
        .ok severe context' ∧ lax.Promotes severe) ∧
    (∀ severe context,
      preprocessWithin fuel { options with warnAsError := true } includes source file =
        .ok severe context → ∃ lax context',
      preprocessWithin fuel { options with warnAsError := false } includes source file =
        .ok lax context' ∧ lax.Promotes severe) ∧
    ∀ severe session context,
      Visits fuel { options with warnAsError := severe } includes source file session context →
        ∃ told, context.sink = (Sink.fresh severe).reportAll told ∧
          ∀ front, front <+: told → ((Sink.fresh severe).reportAll front).Tallied := by
  refine ⟨fun lax context ran => ?_, fun severe context ran => ?_,
    fun severe session context visited => ?_⟩
  · obtain ⟨tell, rfl, promotes, runs⟩ := exists_telling unlimited ran
    obtain ⟨context', ran'⟩ := runs true
    exact ⟨tell true, context', ran', promotes⟩
  · obtain ⟨tell, rfl, promotes, runs⟩ := exists_telling unlimited ran
    obtain ⟨context', ran'⟩ := runs false
    exact ⟨tell false, context', ran', promotes⟩
  · obtain ⟨_, told, sink⟩ := exists_told_of_visits unlimited visited
    exact ⟨told, sink, fun front _ => (Sink.tallied_fresh severe).reportAll front⟩

/-- A redefinition is told as a warning by the one run and as an error by the other. -/
theorem warnAsError_changes_severities_redefinition :
    let source := "#define a 1\n#define a 2\na\n"
    ∃ lax context severe context',
      preprocessWithin 100 {} default source "main.c" = .ok lax context ∧
      preprocessWithin 100 { warnAsError := true } default source "main.c" = .ok severe context' ∧
      lax.Promotes severe ∧ lax.diagnostics.map (·.severity) = [.warning, .note] ∧
      severe.tokens.map (·.lexeme) = ["2", ""] := by
  intro source
  obtain ⟨lax, context, ran, severities⟩ := Engine.exists_ok_of_check
    (show Engine.passes (fun lax => lax.diagnostics.map (·.severity) == [.warning, .note])
      (preprocessWithin 100 {} default source "main.c") = true by decide +kernel)
  obtain ⟨strict, last, ran', tokens⟩ := Engine.exists_ok_of_check
    (show Engine.passes (fun strict => strict.tokens.map (·.lexeme) == ["2", ""])
      (preprocessWithin 100 { warnAsError := true } default source "main.c") =
        true by decide +kernel)
  obtain ⟨severe, context', ran'', promotes⟩ :=
    (@warnAsError_changes_severities 100 {} default source "main.c" rfl).1 lax context ran
  rw [ran'] at ran''
  cases ran''
  exact ⟨lax, context, strict, last, ran, ran', promotes, beq_iff_eq.mp severities,
    beq_iff_eq.mp tokens⟩

end Run

end Preproc
