import Preproc.Proofs.Expansion.Progress
import Preproc.Proofs.Regime.Reading
import Preproc.Result

/-! # Tables that lines lead to

`Session.Arises` are the states that a session leads to, and `Session.Visits` those among them that
it visits while it reads one source. Whatever the source, the macros of a table in such a state are
written: each is a builtin macro or was given by a definition line with the rest of the line as its
body. So, unless a body ends in pastes, they are ready to be played, and expanding tokens with such
a table breaks no promise of the engine (`Preproc.expansion_breaks_no_promise`).
-/

namespace Preproc

namespace Session

/-- The states that a session leads to once it was created, whatever is done with it: sources are
pushed, steps are taken, a token that a step gives is shown until it is taken, and files are closed.
-/
inductive Arises : Session → Context → Prop
  | created {options : Options} {includes : IncludeSystem} {supplied : Option Sink}
      {session : Session} {context : Context}
      (created : create options includes supplied = .ok (session, context)) :
      Arises session context
  | push {session after : Session} {context next : Context} {fuel : Nat} {source path : String}
      (arises : Arises session context)
      (ran : push fuel source path session context = .ok ((), after) next) : Arises after next
  | step {session after : Session} {context next : Context} {fuel : Nat} {given : Option Token}
      (arises : Arises session context)
      (ran : step fuel session context = .ok (given, after) next) : Arises after next
  | shown {session after : Session} {context next : Context} {fuel : Nat} {token : Token}
      (arises : Arises session context)
      (ran : step fuel session context = .ok (some token, after) next) :
      Arises { after with peeked := some token } next
  | taken {session : Session} {context : Context} (arises : Arises session context) :
      Arises { session with peeked := none } context
  | close {session : Session} {context : Context} (arises : Arises session context) :
      Arises session.closeFiles context

theorem of_create {options : Options} {includes : IncludeSystem} {supplied : Option Sink}
    {session : Session} {context : Context}
    (created : create options includes supplied = .ok (session, context)) :
    session = { options, includes } ∧ context.table = .initial := by
  unfold create at created
  split at created
  · cases created
    exact ⟨rfl, rfl⟩
  · split at created
    · cases created
    · cases created
      exact ⟨rfl, rfl⟩

namespace Arises

variable {session after : Session} {context next : Context} {fuel bound : Nat} {token : Token}

theorem start (options : Options) (includes : IncludeSystem) :
    Arises { options, includes } options.context :=
  have created : create options includes none = .ok ({ options, includes }, options.context) := rfl
  .created created

theorem readFresh (arises : session.Arises context)
    (ran : Session.readFresh fuel bound session context = .ok (token, after) next) :
    after.Arises next ∧ { after with peeked := some token }.Arises next := by
  induction bound generalizing session context with
  | zero => cases ran
  | succ bound ih =>
    obtain ⟨given, middle, between, stepped, ran⟩ := bind_ok_iff.mp ran
    cases given with
    | none => exact ih (arises.step stepped) ran
    | some given =>
      cases ran
      exact ⟨arises.step stepped, arises.shown stepped⟩

theorem read (arises : session.Arises context)
    (ran : Session.read fuel session context = .ok (token, after) next) : after.Arises next := by
  cases peeked : session.peeked with
  | some shown =>
    rw [read_of_peeked fuel context peeked] at ran
    cases ran
    exact arises.taken
  | none =>
    rw [read_of_unpeeked fuel peeked] at ran
    exact (arises.readFresh ran).1

theorem peek (arises : session.Arises context)
    (ran : Session.peek fuel session context = .ok (token, after) next) : after.Arises next := by
  cases peeked : session.peeked with
  | some shown =>
    rw [peek_of_peeked fuel context peeked] at ran
    cases ran
    exact arises
  | none =>
    rw [peek_of_unpeeked fuel peeked] at ran
    obtain ⟨_, _, _, ran, ⟨⟩⟩ := bind_ok_iff.mp ran
    exact (arises.readFresh ran).2

theorem readAll {tokens : List Token} (arises : session.Arises context)
    (ran : Session.readAll fuel bound session context = .ok (tokens, after) next) :
    after.Arises next := by
  induction bound generalizing session context tokens with
  | zero => cases ran
  | succ bound ih =>
    obtain ⟨token, middle, between, read, ran⟩ := bind_ok_iff.mp ran
    have arises := arises.read read
    split at ran
    · cases ran
      exact arises
    · obtain ⟨rest, _, _, read, ⟨⟩⟩ := bind_ok_iff.mp ran
      exact ih arises read

end Arises

/-- The states that a session visits while it reads a source: the one in which the source was
opened, and from there on step by step. -/
inductive Visits (fuel : Nat) (options : Options) (includes : IncludeSystem)
    (source file : String) : Session → Context → Prop
  | opened {session : Session} {context : Context}
      (ran : push fuel source file { options, includes } options.context =
        .ok ((), session) context) : Visits fuel options includes source file session context
  | step {session after : Session} {context next : Context} {given : Option Token}
      (visited : Visits fuel options includes source file session context)
      (ran : step fuel session context = .ok (given, after) next) :
      Visits fuel options includes source file after next

theorem Visits.arises {fuel : Nat} {options : Options} {includes : IncludeSystem}
    {source file : String} {session : Session} {context : Context}
    (visited : Visits fuel options includes source file session context) :
    session.Arises context := by
  induction visited with
  | opened ran => exact (Arises.start options includes).push ran
  | step _ ran arises => exact arises.step ran

end Session

/-- A table that a session meets while it reads a source. -/
def MacroTable.Reached (table : MacroTable) : Prop :=
  ∃ fuel options includes source file session context,
    Session.Visits fuel options includes source file session context ∧ context.table = table

namespace Regime

/-- The regime of tables whose macros are written. -/
def written : Regime :=
  ofMacros (·.definition.Written) fun _ => True

theorem lawful_written : written.Lawful :=
  lawful_ofMacros (fun _ => .inr ⟨trivial, trivial⟩) fun _ _ => trivial

theorem governs_written : written.Governs where
  toLawful := lawful_written
  rooted _ _ := trivial
  initial := by
    have builtins : ∀ entry ∈ MacroTable.initial.entries,
        entry.definition = Macro.lineBuiltin ∨ entry.definition = Macro.fileBuiltin := by decide
    intro entry member
    exact (builtins entry member).imp id .inl
  opened file source strict := by
    unfold Scanner.openSource
    split
    · exact .throw fun _ => trivial
    · exact .bind (.meet _ _ fun _ => trivial) id fun _ => .pure fun _ => trivial
  renumbered _ _ _ := trivial
  built serial _ kept _ built _ :=
    .inr (.inr ⟨_, _, _, _, built, fun token member => (kept token member).2⟩)

theorem Guards.of_ok {regime : Regime} {α : Type} {session after : Session} {action : SessionM α}
    {gives : α → Prop} {context next : Context} {value : α} (loud : regime.silent = false)
    (guards : regime.Guards True action gives) (table : regime.Table context)
    (guarded : regime.Guarded session) (ran : action session context = .ok (value, after) next) :
    regime.Table next ∧ gives value ∧ regime.Guarded after := by
  have live : regime.Live next := by
    intro silent
    rw [loud] at silent
    cases silent
  exact (guards _ _ _ _ _ ran live).2 table trivial guarded

end Regime

theorem Session.Arises.guarded {session : Session} {context : Context}
    (arises : session.Arises context) :
    Regime.written.Table context ∧ Regime.written.Guarded session := by
  have governs := Regime.governs_written
  induction arises with
  | created created =>
    obtain ⟨rfl, table⟩ := of_create created
    have initial : Regime.written.Table { table := .initial } := governs.initial
    refine ⟨?_, by simp, trivial, rfl, by simp⟩
    rw [Regime.Table, table]
    exact initial
  | push _ ran ih =>
    obtain ⟨table, _, guarded⟩ := (governs.push _ _ _).of_ok rfl ih.1 ih.2 ran
    exact ⟨table, guarded⟩
  | step _ ran ih =>
    obtain ⟨table, _, guarded⟩ := (governs.step _).of_ok rfl ih.1 ih.2 ran
    exact ⟨table, guarded⟩
  | shown _ ran ih =>
    obtain ⟨table, emits, guarded⟩ := (governs.step _).of_ok rfl ih.1 ih.2 ran
    exact ⟨table, guarded.files, guarded.finish, guarded.ended, by simpa using emits⟩
  | taken _ ih => exact ⟨ih.1, ih.2.files, ih.2.finish, ih.2.ended, by simp⟩
  | close _ ih => exact ⟨ih.1, Regime.guarded_closeFiles governs.toLawful ih.2⟩

theorem MacroTable.Reached.written {table : MacroTable} (reached : table.Reached) :
    ∀ entry ∈ table.entries, entry.definition.Written := by
  obtain ⟨fuel, options, includes, source, file, session, context, visited, rfl⟩ := reached
  exact visited.arises.guarded.1

def expandAndDrain (fuel bound : Nat) (tokens : List Token) (finish : Option Location)
    (origin : Option Token) : Engine (List Token × TokenStream) := do
  (← TokenStream.expand fuel (.queue (.ofList tokens finish)) origin).drain fuel bound

/-- **Expansion breaks no promise.** Expanding any tokens with a table that was reached, none of
whose macros ends in a paste, gives tokens and leaves the table as it is, or reaches the bound on
the number of steps; it fails in no other way. -/
theorem expansion_breaks_no_promise {table : MacroTable} (reached : table.Reached)
    (whole : ∀ entry ∈ table.entries, ∀ op ∈ entry.definition.ops.getLast?, op.isPaste = false)
    (fuel bound : Nat) (tokens : List Token) (finish : Option Location) (origin : Option Token)
    (context : Context) (same : context.table = table) :
    (∃ found next, expandAndDrain fuel bound tokens finish origin context = .ok found next ∧
      next.table = table) ∨
    ∃ next, expandAndDrain fuel bound tokens finish origin context = .error .outOfFuel next := by
  have ready : ∀ entry ∈ table.entries, entry.definition.Ready := by
    intro entry member
    exact (reached.written entry member).ready (whole entry member)
  have proceeds : Engine.Proceeds table (expandAndDrain fuel bound tokens finish origin)
      fun _ => True := by
    apply Engine.Meets.bind
      ((TokenStream.proceeding_move ready fuel).expandWith (.ofList tokens finish) origin)
    intro stream operand
    exact proceeds_drain ready fuel bound operand
  cases ran : expandAndDrain fuel bound tokens finish origin context with
  | ok found next => exact .inl ⟨found, next, rfl, (proceeds.done same ran).1⟩
  | error failure next =>
    cases (proceeds context.sink).failed ⟨same, .inr rfl⟩ ran
    exact .inr ⟨next, rfl⟩

/-- A source whose macro stringizes and pastes, and may be called without its last argument. -/
def joiningSource : String :=
  "#define JOIN(x, ...) #x x ## __VA_ARGS__ __LINE__\n"

def joiningCall : List Token :=
  [(.identifier, "JOIN"), (.punctuator, "("), (.punctuator, ")")].map
    fun (kind, lexeme) => { kind, lexeme, location := .unknown }

theorem expansion_of_joiningCall : ∃ table : MacroTable,
    table.Reached ∧ table.contains "JOIN" = true ∧
      (∀ entry ∈ table.entries, ∀ op ∈ entry.definition.ops.getLast?, op.isPaste = false) ∧
      ∃ found next, expandAndDrain 30 30 joiningCall none none { table } = .ok found next ∧
        next.table = table := by
  let reads : Engine MacroTable := do
    let opened ← Session.push 30 joiningSource "main.c" { options := {}, includes := default }
    let _ ← Session.step 30 opened.2
    return (← get).table
  let checks (table : MacroTable) : Bool :=
    table.contains "JOIN" &&
      decide (∀ entry ∈ table.entries, ∀ op ∈ entry.definition.ops.getLast?, op.isPaste = false) &&
        Engine.passes (fun _ => true) (expandAndDrain 30 30 joiningCall none none { table })
  obtain ⟨_, next, read, passes⟩ :=
    Engine.exists_ok_of_check (show Engine.passes checks (reads {}) = true by decide +kernel)
  simp only [checks, Bool.and_eq_true, decide_eq_true_eq] at passes
  obtain ⟨⟨defined, whole⟩, passes⟩ := passes
  obtain ⟨opened, _, opens, read⟩ := Engine.bind_ok_iff.mp read
  obtain ⟨found, _, steps, ⟨⟩⟩ := Engine.bind_ok_iff.mp read
  have reached : next.table.Reached :=
    ⟨30, {}, default, joiningSource, "main.c", found.2, next, .step (.opened opens) steps, rfl⟩
  obtain ⟨_, _, succeeds, _⟩ := Engine.exists_ok_of_check passes
  refine ⟨next.table, reached, defined, whole, ?_⟩
  obtain done | ⟨_, fails⟩ := expansion_breaks_no_promise reached whole 30 30 joiningCall none none
    { table := next.table } rfl
  · exact done
  · cases succeeds.symm.trans fails

end Preproc
