import Preproc.Proofs.Macro.Ready
import Preproc.Proofs.Session.Takes

/-! # Definition lines

A definition line defines a macro or removes one, or it is refused and leaves the table as it was. A
builtin macro is never touched. No definition line breaks a promise of the engine: what it fails in
is the bound on the number of steps alone.

Main statements: `Session.takes_handleDefine` and `Session.takes_handleUndefine`.
-/

namespace Preproc

open Session (Takes)
open Regime (upcoming)

/-- The name of a macro and those of its parameters. -/
def Macro.names (definition : Macro) : List String :=
  definition.name :: definition.parameters.map (·.name)

/-- A macro that a definition line gives, written as stated. -/
def Macro.GivenBy (written : Macro → Prop) (definition : Macro) : Prop :=
  written definition ∧ ∃ name parameters body place, (build name parameters body place).1 =
    .ok definition

/-- A name that is given on a line: that of an identifier, or what an ellipsis stands for. -/
def NamedIn (tokens : List Token) (name : String) : Prop :=
  name = variadicName ∨ ∃ token ∈ tokens, token.isIdentifier = true ∧ token.lexeme = name

/-- A macro whose body is the last of some tokens, up to places, and whose names are among them. -/
def TakenFrom (tokens : List Token) (definition : Macro) : Prop :=
  (∃ left, left <:+ tokens ∧ NearTokens false left definition.body) ∧
    ∀ name ∈ definition.names, NamedIn tokens name

def Fitting (fits : TokenKind → Prop) (tokens : List Token) : Prop :=
  ∀ token ∈ tokens, token.endsLine = false ∧ fits token.kind

variable {tokens : List Token} {parameters : Option (List Parameter)}

theorem Fitting.near {fits : TokenKind → Prop} {body : List Token}
    (fitting : Fitting fits tokens) (near : NearTokens false tokens body) : Fitting fits body := by
  refine near.forall_mem (fun near here => ?_) fitting
  rwa [near.endsLine, near.kind]

namespace MacroTable

def Free (table : MacroTable) (name : String) : Prop :=
  ∀ definition ∈ table.lookup name, definition.isBuiltin = false

/-- What a definition line may make of a table that it does not leave alone. -/
inductive Edits (written : Macro → Prop) (table : MacroTable) : MacroTable → Prop
  | define {definition : Macro} (given : definition.GivenBy written)
      (free : table.Free definition.name) : Edits written table (table.define definition)
  | undefine {name : String} (free : table.Free name) : Edits written table (table.undefine name)

theorem Edits.imp {written written' : Macro → Prop} {table table' : MacroTable}
    (edits : table.Edits written table') (weaker : ∀ definition, written definition →
      written' definition) : table.Edits written' table' := by
  cases edits with
  | define given free => exact .define (given.imp_left (weaker _)) free
  | undefine free => exact .undefine free

end MacroTable

/-- What a definition line makes of a context. It is refused and leaves the table as it was, or it
is not refused. -/
def Context.Writes (written : Macro → Prop) (context next : Context) : Prop :=
  next.table = context.table ∨ context.table.Edits written next.table ∧ context.Mildly next

theorem calm_writes (written : Macro → Prop) (context : Context) :
    Calm (context.Writes written) := by
  intro middle next defines calmly
  rcases defines with same | ⟨edits, mildly⟩
  · exact .inl (calmly.table.trans same)
  · exact .inr ⟨calmly.table ▸ edits, mildly.trans calmly.mildly⟩

/-! ### Building a macro -/

namespace Macro

variable {name : Token} {parameters : Option (List Parameter)} {body : List Token}
  {place : Location} {definition : Macro}

theorem mild_build : ∀ complaint ∈ (build name parameters body place).2, complaint.2.Mild := by
  have mild : ∀ notice ∈ Op.complaints, notice.Mild := by decide
  exact fun complaint member => mild _ (mem_complaints_build complaint member)

theorem name_of_build (built : (build name parameters body place).1 = .ok definition) :
    definition.name = name.lexeme := by
  rw [eq_of_checked built]

theorem exists_build (settled : ∀ parameter ∈ (parameters.getD []).dropLast,
    parameter.variadic = false) : ∃ definition, (build name parameters body place).1 =
      .ok definition := by
  have ops := Op.compile_ops_ne_nil ((parameters.getD []).map (·.name)).idxOf? parameters.isSome
    body
  have last : (parameters.getD []).dropLast.find? (·.variadic) = none := by
    simpa using settled
  unfold build checked
  dsimp only
  rw [last]
  split
  next empty => exact absurd (List.isEmpty_iff.mp empty) ops
  · exact ⟨_, rfl⟩

end Macro

theorem Engine.runs_build {fails : Failure → Prop} {kept : Context → Prop} (calm : Calm kept)
    (name : Token) (body : List Token) (place : Location)
    (settled : ∀ parameter ∈ (parameters.getD []).dropLast, parameter.variadic = false) :
    Engine.Runs fails kept (Engine.build name parameters body place) (fun _ => kept)
      fun definition => (Macro.build name parameters body place).1 = .ok definition := by
  have reports (complaints : List Op.Complaint)
      (mild : ∀ complaint ∈ complaints, complaint.2.Mild) :
      Engine.Runs fails kept
        (complaints.forM fun complaint => Engine.report complaint.1.location complaint.2)
        (fun _ => kept) fun _ => True := by
    induction complaints with
    | nil => exact .pure trivial
    | cons complaint complaints ih =>
      obtain ⟨here, mild⟩ := List.forall_mem_cons.mp mild
      exact .bind (.report calm _ here) fun _ _ => ih mild
  obtain ⟨definition, built⟩ : ∃ definition,
      (Macro.build name parameters body place).1 = .ok definition := Macro.exists_build settled
  unfold Engine.build
  dsimp only
  rw [built]
  exact .bind (reports _ Macro.mild_build) fun _ _ => .pure rfl

/-! ### The lines -/

/-- What a definition line has made of a context when it has found something on the line, or was
refused because there was nothing to find. -/
def Context.Finds {α : Type} (context : Context) (found : Option α) (next : Context) : Prop :=
  next.table = context.table ∧ (found.isSome = true → context.Mildly next)

theorem Context.Finds.calmly {α : Type} {context next : Context} {value : α}
    (finds : context.Finds (some value) next) : context.Calmly next :=
  ⟨finds.1, finds.2 rfl⟩

namespace Session

variable {fails : Failure → Prop} {session : Session} {context : Context}

theorem takes_refusal (place : Location) (notice : Notice) :
    Takes fails context.Calmly session (report place notice)
      (fun _ next => next.table = context.table) fun _ read => read = session :=
  Engine.Runs.of_ok (fun _ _ => rfl) rfl fun _ calmly => calmly.table

theorem takes_table {β : Type} {before : Context → Prop} {table : MacroTable}
    {next : MacroTable → SessionM β} {last : β → Context → Prop} {wanted : β → Session → Prop}
    (known : ∀ context, before context → context.table = table)
    (rest : Takes fails before session (next table) last wanted) :
    Takes fails before session (Session.table >>= next) last wanted := by
  have looks : Takes fails before session Session.table (fun _ => before) fun found read =>
      found = table ∧ read = session := by
    have found (context : Context) (start : before context) :
        Session.table session context = .ok (table, session) context := by
      rw [← known context start]
      rfl
    exact Engine.Runs.of_ok found ⟨rfl, rfl⟩ fun _ => id
  refine .bind looks ?_
  rintro _ _ ⟨rfl, rfl⟩
  exact rest

theorem namedIn_of_among {line : Line} {frames : List Conditional}
    (inside : line.Among frames tokens session) (named : (upcoming session).isIdentifier = true) :
      NamedIn tokens (upcoming session).lexeme := by
  have firm : Footing.Firm (fun _ => True) _ 0 line.Stands := line.firm trivial (calm_calmly {}) 0
  obtain ⟨left, suffix, stands⟩ := inside
  cases left with
  | nil =>
    obtain ⟨map, shown⟩ := firm.shows stands
    have goesOn := goesOn_of_isIdentifier named
    rw [shown, endsLine_presume, line.remainder.ends] at goesOn
    cases goesOn
  | cons token left =>
    obtain ⟨map, shown⟩ := firm.shows stands
    rw [shown, isIdentifier_presume] at named
    rw [shown, lexeme_presume]
    exact .inr ⟨token, suffix.mem List.mem_cons_self, named, rfl⟩

section Parameters

variable (bounded : fails .outOfFuel) {line : Line} {frames : List Conditional} (fuel : Nat)
  {tokens : List Token} (within : ∀ token ∈ tokens, token.endsLine = false)

include bounded within

theorem takes_takeParameter (known : List Parameter) (inside : line.Among frames tokens session) :
    Takes fails context.Calmly session (takeParameter fuel known) context.Finds fun found read =>
      (∀ parameter ∈ found, NamedIn tokens parameter.name) ∧ line.Among frames tokens read := by
  have calm := calm_calmly context
  have firm := line.firm bounded calm fuel
  refine .head ?_
  split
  · exact .pass (takes_refusal _ _) fun _ => .value ⟨by simp, inside⟩ fun _ same => ⟨same, by simp⟩
  have named : NamedIn tokens (if (upcoming session).isIdentifier then (upcoming session).lexeme
      else variadicName) := by
    split
    next named => exact namedIn_of_among inside named
    · exact .inl rfl
  refine .optional (fun named => ?_) (fun _ => inside) ?_
  · exact (takes_takeAmong firm within inside (goesOn_of_isIdentifier named)).values
      fun _ _ taken => taken.2
  intro read inside
  refine .head ?_
  refine .optional (fun ellipsis => ?_) (fun _ => inside) ?_
  · exact (takes_takeAmong firm within inside (goesOn_of_isPunctuator ellipsis)).values
      fun _ _ taken => taken.2
  intro read inside
  refine .optional (fun _ => ?_) (fun _ => inside) ?_
  · exact (Takes.report calm _ (by simp [Notice.Mild, Notice.code, refusals])).values
      fun _ _ same => same ▸ inside
  · exact fun read inside => .value ⟨by simpa using named, inside⟩ fun _ calmly =>
      ⟨calmly.table, fun _ => calmly.mildly⟩

theorem takes_takeParameters (bound : Nat) {known : List Parameter}
    (named : ∀ parameter ∈ known, NamedIn tokens parameter.name)
    (inside : line.Among frames tokens session) :
    Takes fails context.Calmly session (takeParameters fuel bound known) context.Finds
      fun found read => (∀ parameters ∈ found, ∀ parameter ∈ parameters,
        NamedIn tokens parameter.name) ∧ line.Among frames tokens read := by
  have calm := calm_calmly context
  have firm := line.firm bounded calm fuel
  induction bound generalizing session known with
  | zero => exact .throw bounded
  | succ bound ih =>
    refine .bind (takes_takeParameter bounded fuel within known inside) ?_
    rintro found read ⟨next, inside⟩
    cases found with
    | none => exact .value ⟨by simp, inside⟩ fun _ => id
    | some parameter =>
      have named : ∀ other ∈ known ++ [parameter], NamedIn tokens other.name := by
        refine List.forall_mem_append.mpr ⟨named, ?_⟩
        simpa using next parameter rfl
      refine Takes.before_imp ?_ fun _ => Context.Finds.calmly
      refine .head ?_
      split
      next closing =>
        refine .bind (takes_takeAmong firm within inside (goesOn_of_isPunctuator closing)) ?_
        rintro _ read ⟨rfl, inside⟩
        exact .value ⟨by simpa using named, inside⟩ fun _ calmly =>
          ⟨calmly.table, fun _ => calmly.mildly⟩
      split
      next comma =>
        refine .bind (takes_takeAmong firm within inside (goesOn_of_isPunctuator comma)) ?_
        rintro _ read ⟨rfl, inside⟩
        exact ih named inside
      · exact .pass (takes_refusal _ _) fun _ =>
          .value ⟨by simp, inside⟩ fun _ same => ⟨same, by simp⟩

omit bounded within in
theorem takes_settleVariadics {kept : Context → Prop} (calm : Calm kept)
    (parameters : List Parameter) :
    Takes fails kept session (settleVariadics parameters) (fun _ => kept) fun settled read =>
      (∀ parameter ∈ settled.dropLast, parameter.variadic = false) ∧
        settled.map (·.name) = parameters.map (·.name) ∧ read = session := by
  induction parameters with
  | nil => exact .pure ⟨by simp, rfl, rfl⟩
  | cons parameter rest ih =>
    cases rest with
    | nil => exact .pure ⟨by simp, rfl, rfl⟩
    | cons second rest =>
      refine .optional (fun _ => .report calm _ ?_) (fun _ => rfl) ?_
      · simp [Notice.Mild, Notice.code, refusals]
      rintro _ rfl
      refine .bind ih ?_
      rintro settled _ ⟨only, same, rfl⟩
      refine .pure ⟨?_, congrArg (parameter.name :: ·) same, rfl⟩
      cases settled with
      | nil => simp
      | cons next settled =>
        exact List.forall_mem_cons.mpr ⟨rfl, only⟩

theorem takes_parameterList (inside : line.Among frames tokens session) :
    Takes fails context.Calmly session (parameterList fuel) context.Finds fun found read =>
      (∀ parameters ∈ found, (∀ parameter ∈ parameters.dropLast, parameter.variadic = false) ∧
        ∀ name ∈ parameters.map (·.name), NamedIn tokens name) ∧ line.Among frames tokens read := by
  have calm := calm_calmly context
  have firm := line.firm bounded calm fuel
  refine .head ?_
  split
  next closing =>
    refine .bind (takes_takeAmong firm within inside (goesOn_of_isPunctuator closing)) ?_
    rintro _ read ⟨rfl, inside⟩
    exact .value ⟨by simp, inside⟩ fun _ calmly => ⟨calmly.table, fun _ => calmly.mildly⟩
  refine .bind (takes_takeParameters bounded fuel within fuel (by simp) inside) ?_
  rintro found read ⟨named, inside⟩
  cases found with
  | none => exact .value ⟨by simp, inside⟩ fun _ => id
  | some parameters =>
    refine Takes.before_imp ?_ fun _ => Context.Finds.calmly
    refine .bind (takes_settleVariadics calm parameters) ?_
    rintro settled _ ⟨only, same, rfl⟩
    refine .value ⟨?_, inside⟩ fun _ calmly => ⟨calmly.table, fun _ => calmly.mildly⟩
    rintro _ ⟨⟩
    rw [same]
    exact ⟨only, List.forall_mem_map.mpr (named parameters rfl)⟩

theorem takes_expectName (directive : Token) (inside : line.Among frames tokens session) :
    Takes fails context.Calmly session (expectName fuel directive) context.Finds fun found read =>
      (∀ name ∈ found, NamedIn tokens name.lexeme) ∧ line.Among frames tokens read := by
  refine .head ?_
  split
  next named =>
    have shown := namedIn_of_among inside named
    refine .bind (takes_takeAmong (line.firm bounded (calm_calmly context) fuel) within inside
      (goesOn_of_isIdentifier named)) ?_
    rintro _ read ⟨rfl, inside⟩
    exact .value ⟨by simpa using shown, inside⟩ fun _ calmly =>
      ⟨calmly.table, fun _ => calmly.mildly⟩
  · exact .pass (takes_refusal _ _) fun _ => .value ⟨by simp, inside⟩ fun _ same => ⟨same, by simp⟩

end Parameters

section Edits

variable (bounded : fails .outOfFuel) {line : Line} {frames : List Conditional} (fuel : Nat)
  {tokens : List Token} (within : ∀ token ∈ tokens, token.endsLine = false)
  {written : Macro → Prop}

theorem takes_define {definition : Macro} (given : definition.GivenBy written)
    (free : context.table.Free definition.name) :
    Takes fails context.Calmly session (Engine.define definition : SessionM Unit)
      (fun _ => context.Writes written) fun _ read => read = session := by
  refine Engine.Runs.of_ok (fun _ _ => rfl) rfl fun middle calmly => .inr ⟨?_, calmly.mildly⟩
  change context.table.Edits written (middle.table.define definition)
  rw [calmly.table]
  exact .define given free

theorem takes_undefine (written : Macro → Prop) {name : String} (free : context.table.Free name) :
    Takes fails context.Calmly session (Engine.undefine name : SessionM Unit)
      (fun _ => context.Writes written) fun _ read => read = session := by
  refine Engine.Runs.of_ok (fun _ _ => rfl) rfl fun middle calmly => .inr ⟨?_, calmly.mildly⟩
  change context.table.Edits written (middle.table.undefine name)
  rw [calmly.table]
  exact .undefine free

include bounded within

theorem takes_defineFrom (name : Token)
    (settled : ∀ parameter ∈ (parameters.getD []).dropLast, parameter.variadic = false)
    (named : NamedIn tokens name.lexeme ∧
      ∀ name ∈ (parameters.getD []).map (·.name), NamedIn tokens name)
    (inside : line.Among frames tokens session) :
    Takes fails context.Calmly session (defineFrom fuel name parameters)
      (fun _ => context.Writes (TakenFrom tokens)) fun _ read => line.Among frames tokens read := by
  have calm := calm_calmly context
  have firm := line.firm bounded calm fuel
  obtain ⟨left, suffix, stands⟩ := inside
  refine .bind
    (takes_restFrom firm (fun token member => within token (suffix.mem member)) stands) ?_
  rintro body read ⟨near, atEnd⟩
  refine takes_table (fun _ calmly => calmly.table) ?_
  -- Whatever is built from the rest of the line is defined under the name on the line.
  have defines {definition : Macro} {place : Location}
      (free : context.table.Free name.lexeme)
      (built : (Macro.build name parameters body place).1 = .ok definition) :
      Takes fails context.Calmly read (Engine.define definition : SessionM Unit)
        (fun _ => context.Writes (TakenFrom tokens)) fun _ read =>
          line.Among frames tokens read := by
    have given : definition.GivenBy (TakenFrom tokens) := by
      refine ⟨?_, name, parameters, body, place, built⟩
      rw [Macro.eq_of_checked built]
      exact ⟨⟨left, suffix, near⟩, List.forall_mem_cons.mpr named⟩
    apply (takes_define given ?_).values
    · rintro _ _ rfl
      exact atEnd.among
    · rw [Macro.name_of_build built]
      exact free
  split
  next unknown =>
    refine .head (.bind (.lift (Engine.runs_build calm name body _ settled)) ?_)
    rintro definition _ ⟨built, rfl⟩
    exact defines (by simp [MacroTable.Free, unknown]) built
  next previous known =>
    split
    · apply (takes_refusal _ _).imp
      · exact fun _ _ => .inl
      · rintro _ _ rfl
        exact atEnd.among
    next plain =>
      have free : context.table.Free name.lexeme := by
        simpa [MacroTable.Free, known] using plain
      refine .head (.bind (.lift (Engine.runs_build calm name body _ settled)) ?_)
      rintro definition _ ⟨built, rfl⟩
      split
      · refine .bind (.report calm _ (by simp [Notice.Mild, Notice.code, refusals])) ?_
        rintro _ _ rfl
        split
        · exact .pass (.report calm _ (by simp [Notice.Mild, Notice.code, refusals])) fun _ =>
            defines free built
        · exact defines free built
      · exact defines free built

/-- **A definition line** is refused, or defines what is on the line under a name that is not that
of a builtin macro. -/
theorem takes_handleDefine (directive : Token) (inside : line.Among frames tokens session) :
    Takes fails context.Calmly session (handleDefine fuel directive)
      (fun _ => context.Writes (TakenFrom tokens)) fun ending read =>
        ending ≠ .taken ∧ line.Among frames tokens read := by
  have calm := calm_calmly context
  have firm := line.firm bounded calm fuel
  refine .bind (takes_expectName bounded fuel within directive inside) ?_
  rintro found read ⟨named, inside⟩
  cases found with
  | none => exact .value ⟨by simp, inside⟩ fun _ found => .inl found.1
  | some name =>
    refine Takes.before_imp (.head ?_) fun _ => Context.Finds.calmly
    split
    next opening =>
      simp only [Bool.and_eq_true] at opening
      refine .bind (takes_takeAmong firm within inside
        (goesOn_of_isPunctuator opening.1)) ?_
      rintro _ read ⟨rfl, inside⟩
      refine .bind (takes_parameterList bounded fuel within inside) ?_
      rintro found read ⟨listed, inside⟩
      cases found with
      | none => exact .value ⟨by simp, inside⟩ fun _ found => .inl found.1
      | some parameters =>
        obtain ⟨settled, listed⟩ := listed parameters rfl
        refine Takes.before_imp (.bind (takes_defineFrom bounded fuel within name settled
          ⟨named name rfl, listed⟩ inside) ?_) fun _ => Context.Finds.calmly
        exact fun _ read inside => .pure ⟨by simp, inside⟩
    · refine .bind (takes_defineFrom bounded fuel within name ?_ ⟨named name rfl, ?_⟩ inside) ?_
      · simp
      · simp
      · exact fun _ read inside => .pure ⟨by simp, inside⟩

/-- **A line that removes a macro** is refused, or removes one that is not builtin. -/
theorem takes_handleUndefine (directive : Token) (inside : line.Among frames tokens session) :
    Takes fails context.Calmly session (handleUndefine fuel directive)
      (fun _ => context.Writes (TakenFrom tokens)) fun ending read =>
        ending ≠ .taken ∧ line.Among frames tokens read := by
  refine .bind (takes_expectName bounded fuel within directive inside) ?_
  rintro found read ⟨named, inside⟩
  cases found with
  | none => exact .value ⟨by simp, inside⟩ fun _ found => .inl found.1
  | some name =>
    refine Takes.before_imp (takes_table (fun _ calmly => calmly.table) ?_) fun _ =>
      Context.Finds.calmly
    split
    next unknown =>
      exact .pass (takes_undefine (TakenFrom tokens) (by simp [MacroTable.Free, unknown])) fun _ =>
        .pure ⟨by simp, inside⟩
    next previous known =>
      split
      · exact .pass (takes_refusal _ _) fun _ => .value ⟨by simp, inside⟩ fun _ => .inl
      next plain =>
        refine .pass (takes_undefine (TakenFrom tokens) ?_) fun _ => .pure ⟨by simp, inside⟩
        simpa [MacroTable.Free, known] using plain

end Edits

end Session

end Preproc
