import Preproc.Proofs.Session.Poised
import Preproc.Proofs.Session.Truncate

/-! # A run that keeps up with another

The second of two sessions *keeps up* with the first for a number of steps if each step of the first
that gives a token is matched by a step of the second that gives the same, and each other step is
matched by one or by none. A relation between open files is *upheld* if this is so whenever the
files are related. What is upheld is shown backwards, from what comes later in the run to what comes
before: a step of both sessions, or of the first alone, leads from one relation to the next.

Main statements: `Upholds.lockstep`, `Upholds.wholeLine` and `preprocessWithin_of_upholds`.
-/

namespace Preproc

open Regime (governs_written)
open Session (Linked Beside Visits stops)

variable {fuel : Nat}

/-- No macro with parameters has been defined. -/
def Context.ObjectLike (context : Context) : Prop :=
  ∀ definition, .defining definition ∈ context.events → definition.isFunctionLike = false

namespace Session

/-- Sessions that are the same apart from their files, after the same was reported and defined. -/
structure Level (session : Session) (context : Context) (session' : Session) (context' : Context) :
    Prop where
  same : session' = { session with files := session'.files }
  unpeeked : session.peeked = none
  table : context'.table = context.table
  sink : context'.sink = context.sink

/-- The second session keeps up with the first for a number of steps. -/
def KeepsUp (fuel : Nat) : (steps : Nat) → (session : Session) → (context : Context) →
    (session' : Session) → (context' : Context) → Prop
  | 0, session, context, session', context' => Level session context session' context'
  | steps + 1, session, context, session', context' =>
    Level session context session' context' ∧
      ∀ given after next, step fuel session context = .ok (given, after) next → context.ObjectLike →
        (given = none ∧ KeepsUp fuel steps after next session' context') ∨
          ∃ after' next', step fuel session' context' = .ok (given, after') next' ∧
            KeepsUp fuel steps after next after' next'

variable {session session' after : Session} {context context' next : Context}

namespace KeepsUp

variable {steps : Nat}

theorem level (keeps : KeepsUp fuel steps session context session' context') :
    Level session context session' context' := by
  cases steps with
  | zero => exact keeps
  | succ steps => exact keeps.1

theorem pred (keeps : KeepsUp fuel (steps + 1) session context session' context') :
    KeepsUp fuel steps session context session' context' := by
  induction steps generalizing session context session' context' with
  | zero => exact keeps.1
  | succ steps ih =>
    refine ⟨keeps.1, fun given after next ran objectLike => ?_⟩
    rcases keeps.2 given after next ran objectLike with
      ⟨none, keeps⟩ | ⟨after', next', ran', keeps⟩
    · exact .inl ⟨none, ih keeps⟩
    · exact .inr ⟨after', next', ran', ih keeps⟩

theorem mono {fewer : Nat} (keeps : KeepsUp fuel steps session context session' context')
    (less : fewer ≤ steps) : KeepsUp fuel fewer session context session' context' := by
  induction less with
  | refl => exact keeps
  | step _ ih => exact ih keeps.pred

end KeepsUp

section Reading

theorem objectLike_of_guards {α : Type} {action : SessionM α} {gives : α → Prop} {value : α}
    (guards : Regime.written.Guards True action gives)
    (ran : action session context = .ok (value, after) next) (objectLike : next.ObjectLike) :
    context.ObjectLike := by
  obtain ⟨⟨_, trails⟩, _⟩ := guards _ _ _ _ _ ran (by rintro ⟨⟩)
  exact fun definition member => objectLike definition (trails _ member)

variable {bound : Nat}

theorem readFresh_succ {found : Token × Session}
    (ran : readFresh fuel bound session context = .ok found next) :
    readFresh fuel (bound + 1) session context = .ok found next := by
  induction bound generalizing session context with
  | zero => cases ran
  | succ bound ih =>
    obtain ⟨⟨given, middle⟩, read, stepped, ran⟩ := Engine.bind_ok_iff.mp ran
    refine Engine.bind_ok_iff.mpr ⟨_, _, stepped, ?_⟩
    cases given with
    | some token => exact ran
    | none => exact ih ran

theorem KeepsUp.readFresh {steps : Nat} {token : Token}
    (keeps : KeepsUp fuel (steps + bound) session context session' context')
    (ran : Session.readFresh fuel bound session context = .ok (token, after) next)
    (objectLike : next.ObjectLike) :
    ∃ after' next', Session.readFresh fuel bound session' context' = .ok (token, after') next' ∧
      KeepsUp fuel steps after next after' next' := by
  induction bound generalizing session context session' context' with
  | zero => cases ran
  | succ bound ih =>
    have early : context.ObjectLike :=
      objectLike_of_guards (governs_written.readFresh fuel _) ran objectLike
    obtain ⟨⟨given, middle⟩, read, stepped, ran⟩ := Engine.bind_ok_iff.mp ran
    rcases keeps.2 given middle read stepped early with
      ⟨rfl, keeps⟩ | ⟨middle', read', stepped', keeps⟩
    · obtain ⟨after', next', ran', keeps⟩ := ih keeps ran
      exact ⟨after', next', readFresh_succ ran', keeps⟩
    · cases given with
      | none =>
        obtain ⟨after', next', ran', keeps⟩ := ih keeps ran
        exact ⟨after', next', Engine.bind_ok_iff.mpr ⟨_, _, stepped', ran'⟩, keeps⟩
      | some token =>
        cases ran
        exact ⟨_, _, Engine.bind_ok_iff.mpr ⟨_, _, stepped', rfl⟩,
          keeps.mono (Nat.le_add_right _ _)⟩

theorem KeepsUp.readAll {tokens : List Token}
    (keeps : KeepsUp fuel (bound * fuel) session context session' context')
    (ran : Session.readAll fuel bound session context = .ok (tokens, after) next)
    (objectLike : next.ObjectLike) :
    ∃ after' next', Session.readAll fuel bound session' context' = .ok (tokens, after') next' ∧
      Level after next after' next' := by
  induction bound generalizing session context session' context' tokens with
  | zero => cases ran
  | succ bound ih =>
    obtain ⟨⟨token, middle⟩, read, took, ran⟩ := Engine.bind_ok_iff.mp ran
    have unpeeked := keeps.level.unpeeked
    have unpeeked' : session'.peeked = none := by rw [keeps.level.same, unpeeked]
    rw [read_of_unpeeked fuel unpeeked] at took
    rw [Nat.succ_mul] at keeps
    dsimp only at ran
    split at ran
    next ended =>
      cases ran
      obtain ⟨middle', read', took', keeps⟩ := keeps.readFresh took objectLike
      rw [← read_of_unpeeked fuel unpeeked'] at took'
      refine ⟨middle', read', Engine.bind_ok_iff.mpr ⟨_, _, took', ?_⟩, keeps.level⟩
      dsimp only
      rw [if_pos ended]
      rfl
    next goesOn =>
      obtain ⟨⟨rest, final⟩, last, more, ran⟩ := Engine.bind_ok_iff.mp ran
      cases ran
      obtain ⟨middle', read', took', keeps⟩ := keeps.readFresh took
        (objectLike_of_guards (governs_written.readAll fuel bound) more objectLike)
      rw [← read_of_unpeeked fuel unpeeked'] at took'
      obtain ⟨final', last', more', level⟩ := ih keeps more
      refine ⟨final', last', Engine.bind_ok_iff.mpr ⟨_, _, took', ?_⟩, level⟩
      dsimp only
      rw [if_neg goesOn]
      exact Engine.bind_ok_iff.mpr ⟨_, _, more', rfl⟩

end Reading

end Session

open Session (KeepsUp Level)

/-- What is known of the states of a run without a limit on errors. -/
structure Charted (fuel : Nat) (known : Session → Context → Prop) : Prop where
  step : ∀ {session context given after next}, known session context →
    Session.step fuel session context = .ok (given, after) next → known after next
  unlimited : ∀ {session context}, known session context → session.Unlimited context
  traced : ∀ {session context}, known session context → ∀ entry ∈ context.table.entries,
    entry.definition.isFunctionLike = false ∨ .defining entry.definition ∈ context.events

namespace Charted

variable {known : Session → Context → Prop} (charted : Charted fuel known)
  {session session' : Session} {context context' : Context}
include charted

theorem simple (knows : known session context) (objectLike : context.ObjectLike) :
    context.table.Simple := by
  obtain ⟨texts, reached⟩ := (charted.unlimited knows).reached
  refine ⟨reached.sane.plain, fun entry member => ?_⟩
  exact (charted.traced knows entry member).elim id (objectLike _)

theorem goesOn (knows : known session context) : stops session context = false := by
  simp [stops, (charted.unlimited knows).limit]

theorem goesOn' (knows : known session context) (level : Level session context session' context') :
    stops session' context' = false := by
  rw [level.same]
  simp [stops, (charted.unlimited knows).limit]

end Charted

section Visits

variable {options : Options} {includes : IncludeSystem} {source file : String}

theorem Session.Unlimited.traces {session after : Session} {context next : Context}
    {given : Option Token} (unlimited : session.Unlimited context)
    (ran : Session.step fuel session context = .ok (given, after) next) : context.Traces next := by
  have goesOn : stops session context = false := by simp [stops, unlimited.limit]
  obtain ⟨_, again⟩ := blind_proceed fuel _ _ _ _ _ ((step_of_goesOn goesOn).mp ran)
  obtain ⟨_, _, echo⟩ := again 0 false context rfl
  obtain ⟨told, hears, _⟩ := echo.told
  exact hears.traces

theorem charted_visits (unlimited : options.errorLimit = 0) :
    Charted fuel (Visits fuel options includes source file) := by
  have unlimited {session : Session} {context : Context}
      (visited : Visits fuel options includes source file session context) :
      session.Unlimited context := by
    induction visited with
    | opened ran =>
      have whole : { options with errorLimit := 0 } = options := by rw [← unlimited]
      rw [← whole] at ran
      exact Session.unlimited_push ran
    | step _ ran ih => exact (@Session.Unlimited.step _ _ _ _ _ 0 _ ih ran).1
  refine ⟨.step, unlimited, fun visited => ?_⟩
  induction visited with
  | opened ran =>
    obtain ⟨_, again⟩ := Session.blind_push fuel source file _ _ _ _ _ ran
    obtain ⟨_, _, echo⟩ := again 0 false options.context rfl
    obtain ⟨told, hears, _⟩ := echo.told
    have builtins : ∀ entry ∈ MacroTable.initial.entries,
        entry.definition.isFunctionLike = false := by decide
    exact fun entry member => (hears.traces.traced entry member).imp_left (builtins entry)
  | step visited ran ih =>
    have traces := (unlimited visited).traces ran
    intro entry member
    rcases traces.traced entry member with before | traced
    · exact (ih entry before).imp_right (traces.grows _)
    · exact .inr traced

end Visits

/-- Whenever the files of a known state of the first session are related to those of the second,
that one keeps up. -/
def Upholds (fuel : Nat) (known : Session → Context → Prop) (steps : Nat) (files : FileRelation) :
    Prop :=
  ∀ session session' context context', known session context → files session.files session'.files →
    Level session context session' context' → KeepsUp fuel steps session context session' context'

/-- The given files below others that both sessions share. -/
def Sharing (below below' : List InputFile) : FileRelation := fun files files' =>
  ∃ above, files = above ++ below ∧ files' = above ++ below'

namespace Upholds

variable {known : Session → Context → Prop} {steps : Nat} {before after : FileRelation}

theorem imp (upholds : Upholds fuel known steps after)
    (weaker : ∀ files files', before files files' → after files files') :
    Upholds fuel known steps before :=
  fun _ _ _ _ knows files level => upholds _ _ _ _ knows (weaker _ _ files) level

theorem mono {fewer : Nat} (upholds : Upholds fuel known steps after) (less : fewer ≤ steps) :
    Upholds fuel known fewer after :=
  fun _ _ _ _ knows files level => (upholds _ _ _ _ knows files level).mono less

theorem zero : Upholds fuel known 0 before :=
  fun _ _ _ _ _ _ level => level

theorem either (upholds : Upholds fuel known steps before)
    (upholds' : Upholds fuel known steps after) :
    Upholds fuel known steps fun files files' => before files files' ∨ after files files' := by
  rintro session session' context context' knows (files | files) level
  · exact upholds _ _ _ _ knows files level
  · exact upholds' _ _ _ _ knows files level

variable (charted : Charted fuel known)
include charted

/-- A step that both sessions take. -/
theorem lockstep {fits : MacroTable → Prop} (fit : ∀ {table : MacroTable}, table.Simple →
    fits table)
    (linked : Linked (.of fits) (Beside before) (Session.proceed fuel) fun _ => Beside after)
    (upholds : Upholds fuel known steps after) : Upholds fuel known (steps + 1) before := by
  intro session session' context context' knows files level
  refine ⟨level, fun given middle next ran objectLike => .inr ?_⟩
  have proceeds := (Session.step_of_goesOn (charted.goesOn knows)).mp ran
  obtain ⟨middle', next', proceeds', echo, _, files, same⟩ := linked.run ⟨files, level.same⟩
    (fit (charted.simple knows objectLike)) level.table proceeds
  have knows' := charted.step knows ran
  exact ⟨middle', next', (Session.step_of_goesOn (charted.goesOn' knows level)).mpr proceeds',
    upholds _ _ _ _ knows' files
      ⟨same, (charted.unlimited knows').peeked, echo.table, echo.sink level.sink⟩⟩

theorem alone
    (goes : ∀ {session session' context given middle next}, known session context →
      stops session context = false → Beside before session session' →
      Session.step fuel session context = .ok (given, middle) next →
      given = none ∧ next.table = context.table ∧ next.sink = context.sink ∧
        Beside after middle session')
    (upholds : Upholds fuel known steps after) : Upholds fuel known (steps + 1) before := by
  intro session session' context context' knows files level
  refine ⟨level, fun given middle next ran _ => .inl ?_⟩
  obtain ⟨silent, table, sink, files, same⟩ :=
    goes knows (charted.goesOn knows) ⟨files, level.same⟩ ran
  have knows' := charted.step knows ran
  exact ⟨silent, upholds _ _ _ _ knows' files ⟨same, (charted.unlimited knows').peeked,
    level.table.trans table.symm, level.sink.trans sink.symm⟩⟩

/-- A step of the first session that the second answers with one of its own, without a trace in its
context. -/
theorem both
    (goes : ∀ {session session' context given middle next}, known session context →
      stops session context = false → Beside before session session' →
      Session.step fuel session context = .ok (given, middle) next →
      given = none ∧ next.table = context.table ∧ next.sink = context.sink ∧
        ∃ middle', Beside after middle middle' ∧ ∀ context', stops session' context' = false →
          Session.step fuel session' context' = .ok (none, middle') context')
    (upholds : Upholds fuel known steps after) : Upholds fuel known (steps + 1) before := by
  intro session session' context context' knows files level
  refine ⟨level, fun given middle next ran _ => .inr ?_⟩
  obtain ⟨rfl, table, sink, middle', ⟨files, same⟩, answers⟩ :=
    goes knows (charted.goesOn knows) ⟨files, level.same⟩ ran
  have knows' := charted.step knows ran
  exact ⟨middle', context', answers context' (charted.goesOn' knows level),
    upholds _ _ _ _ knows' files ⟨same, (charted.unlimited knows').peeked,
      level.table.trans table.symm, level.sink.trans sink.symm⟩⟩

theorem shared {below below' : List InputFile} (even : below = [] ↔ below' = [])
    (resumes : below ≠ [] →
      Upholds fuel known steps fun files files' => files = below ∧ files' = below') :
    Upholds fuel known steps (Sharing below below') := by
  induction steps with
  | zero => exact zero
  | succ steps ih =>
    rintro session session' context context' knows ⟨above, files, files'⟩ level
    by_cases left : above = [] ∧ below ≠ []
    · obtain ⟨rfl, nonempty⟩ := left
      exact resumes nonempty _ _ _ _ knows ⟨files, files'⟩ level
    have goesOn := ih fun nonempty => (resumes nonempty).mono (Nat.le_succ _)
    have shares : above = [] → below = [] ∧ below' = [] := by
      intro flat
      have empty : below = [] := by simpa [flat] using left
      exact ⟨empty, even.mp empty⟩
    have linked : Linked .any
        (Beside fun files files' => ∃ above, (above = [] → below = [] ∧ below' = []) ∧
          files = above ++ below ∧ files' = above ++ below')
        (Session.proceed fuel) fun _ => Beside (Sharing below below') := by
      refine (Session.linked_proceed fuel (Twins.free_overFiles below below') even).imp ?_ ?_
      · rintro session session' ⟨⟨above, shares, files, files'⟩, same⟩
        rw [files'] at same
        exact ⟨above, shares, trivial, files, same⟩
      · rintro _ session _ ⟨_, above, _, files, rfl⟩
        exact ⟨⟨above, files, rfl⟩, rfl⟩
    exact lockstep charted (fun _ => trivial) linked goesOn _ _ _ _ knows
      ⟨above, shares, files, files'⟩ level

theorem same : Upholds fuel known steps fun files files' => files' = files := by
  refine (shared charted Iff.rfl fun differs => (differs rfl).elim).imp fun files files' same => ?_
  exact ⟨files, (List.append_nil _).symm, by rw [same, List.append_nil]⟩

theorem above {files : FileRelation} (even : ∀ {below below'}, files below below' →
      (below = [] ↔ below' = [])) (upholds : Upholds fuel known steps files) :
    Upholds fuel known steps (Above files) := by
  rintro session session' context context' knows ⟨file, below, below', related, whole, whole'⟩ level
  refine shared charted (even related) (fun _ => upholds.imp ?_) _ _ _ _ knows
    ⟨[file], whole, whole'⟩ level
  rintro _ _ ⟨rfl, rfl⟩
  exact related

end Upholds

namespace Upholds

variable {known : Session → Context → Prop} {steps depth : Nat} (charted : Charted fuel known)
  {rest rest' : List Token} {tails : Option (List Conditional × List Conditional)}
  (ends : Terminated rest) (ends' : Terminated rest')
  (shown : ∀ {tail tail'}, tails = some (tail, tail') →
    Conditional.isSkipping tail' = Conditional.isSkipping tail)

include charted ends ends' shown

theorem onward (next : Upholds fuel known steps (Poised (Framing tails depth) rest rest')) :
    Upholds fuel known steps (OneFile (Onward rest rest') (Framing tails depth)) := by
  induction steps with
  | zero => exact zero
  | succ steps ih =>
    have goesOn := ih (next.mono (Nat.le_succ _))
    have line := lockstep charted id (Session.linked_proceed_line ends ends'
      fun framed => framed.isSkipping_eq shown) goesOn
    apply (line.either next).imp
    rintro _ _ ⟨path, expansion, expansion', frames, frames', abreast | turned, rest⟩
    · exact .inl ⟨path, expansion, expansion', frames, frames', abreast, rest⟩
    · exact .inr ⟨path, expansion, expansion', frames, frames', turned, rest⟩

/-- A whole line, when the next lines are known to go well. -/
theorem wholeLine {front : List Token} (whole : WholeLine front)
    (reaches : ∀ directive ∈ directiveOn front, directive.reaches = true → tails = none ∨ 0 < depth)
    (next : Upholds fuel known steps
      (Poised (Framing tails (deepenBy (directiveOn front) depth)) rest rest')) :
    Upholds fuel known steps (Poised (Framing tails depth) (front ++ rest) (front ++ rest')) := by
  rcases whole with inside | ⟨mark, name, later, rfl, marks, inside⟩
  · have noDirective : directiveOn front = none := by
      unfold directiveOn
      split
      next mark name _ => rw [if_neg inside.plain]
      next => rfl
    rw [noDirective] at next
    refine (onward charted ends ends' shown next).imp fun _ _ one => one.imp (fun turned => ?_) id
    have flush := turned.flush_of_line inside
    refine .inl { flush with going := flush.going.going ?_ }
    obtain ⟨spot, rfl, _⟩ := turned
    cases front with
    | nil => exact inside.elim
    | cons token front => simpa [Spot.expansion] using inside.plain
  · have named : directiveOn (mark :: name :: later) = name.directive? := by
      rw [directiveOn, if_pos marks]
    rw [named] at next reaches
    cases steps with
    | zero => exact zero
    | succ steps =>
      have goesOn := onward charted ends ends' shown (next.mono (Nat.le_succ steps))
      refine lockstep charted (fun _ => trivial)
        (Session.linked_proceed_directive ends ends' shown marks inside reaches)
        (goesOn.either (above charted ?_ goesOn))
      rintro _ _ ⟨_, _, _, _, _, _, _, rfl, rfl⟩
      simp

end Upholds

section Run

variable {options : Options} {includes : IncludeSystem} {source source' file : String}

/-- **A run that is kept up with is reproduced.** -/
theorem preprocessWithin_of_upholds (flawless : scanFlaws file source = [])
    (flawless' : scanFlaws file source' = []) (unlimited : options.errorLimit = 0)
    (upholds : ∀ steps, Upholds fuel (Visits fuel options includes source file) steps
      (Poised (Framing none 0) (scanTokens file source) (scanTokens file source')))
    {result : Result} {context : Context}
    (ran : preprocessWithin fuel options includes source file = .ok result context)
    (objectLike : context.ObjectLike) :
    ∃ context', preprocessWithin fuel options includes source' file = .ok result context' := by
  obtain ⟨tokens, session, middle, opened, after, read, rfl⟩ := of_preprocessWithin ran
  have visited : Visits fuel options includes source file session middle := .opened opened
  have charted : Charted fuel (Visits fuel options includes source file) := charted_visits unlimited
  cases fuel with
  | zero =>
    obtain ⟨_, _, _, opened, _⟩ := Session.bind_ok_iff.mp opened
    exact (Session.openFile_of_no_fuel opened).elim
  | succ fuel =>
    let input (source : String) : InputFile := (Spot.start file).input (scanTokens file source) []
    let twins := Twins.overFiles [input source] [input source']
    obtain ⟨_, _, _, first, opened⟩ := Session.bind_ok_iff.mp opened
    rw [Session.openFile_of_flawless flawless] at first
    cases first
    have goes : Linked .any twins.Based
        (Session.openCommandLine (fuel + 1) false options.commandLine) fun _ => twins.Based :=
      Session.linked_openCommandLine (fuel + 1) (Twins.free_overFiles _ _) false options.commandLine
    obtain ⟨session', middle', opened', echo, _, above, _, files, same⟩ :=
      goes.run ⟨[], trivial, rfl, rfl⟩ trivial (Eq.refl options.context.table) opened
    have pushed : Session.push (fuel + 1) source' file { options, includes } options.context =
        .ok ((), session') middle' := by
      exact Session.bind_ok_iff.mpr ⟨_, _, _, Session.openFile_of_flawless flawless' _, opened'⟩
    have files' : session'.files = above ++ [input source'] := same ▸ rfl
    have level : Level session middle session' middle' :=
      ⟨by rw [same]; rfl, (charted.unlimited visited).peeked, echo.table, echo.sink rfl⟩
    have keeps : KeepsUp (fuel + 1) ((fuel + 1) * (fuel + 1)) session middle session' middle' := by
      refine Upholds.shared charted (by simp [twins, Twins.overFiles])
        (fun _ => (upholds _).imp ?_) _ _ _ _ visited ⟨above, files, files'⟩ level
      rintro _ _ ⟨rfl, rfl⟩
      exact ⟨_, _, _, _, _, ⟨Spot.start file, rfl, rfl⟩, rfl, rfl, rfl⟩
    obtain ⟨after', next', read', level⟩ := keeps.readAll read objectLike
    refine ⟨next', ?_⟩
    rw [preprocessWithin_of pushed read']
    unfold Result.gather
    rw [level.same, level.table, level.sink]

end Run

end Preproc
