import Preproc.Proofs.Expansion.Follows
import Preproc.Session.Read

/-! # Steps of a session

Equations for the actions of a session and for a step: what they do when a file is open, and what a
step does once the limit on errors was checked (`Session.proceed`).
-/

namespace Preproc

/-- The next raw token of a session. -/
def Regime.upcoming (session : Session) : Token :=
  match session.files with
  | [] => session.finish
  | file :: _ => file.stream.head

theorem Regime.rawHead_eq (session : Session) (context : Context) :
    Session.rawHead session context = .ok (upcoming session, session) context := by
  obtain ⟨options, includes, files⟩ := session
  cases files <;> rfl

namespace Session

variable {session : Session} {context : Context}

theorem bind_ok_iff {α β : Type} {action : SessionM α} {next : α → SessionM β}
    {last : Context} {found : β × Session} : (action >>= next) session context = .ok found last ↔
      ∃ value middle read, action session context = .ok (value, middle) read ∧
        next value middle read = .ok found last := by
  constructor
  · intro ran
    obtain ⟨⟨value, middle⟩, read, first, rest⟩ := Engine.bind_ok_iff.mp ran
    exact ⟨value, middle, read, first, rest⟩
  · rintro ⟨value, middle, read, first, rest⟩
    exact Engine.bind_ok_iff.mpr ⟨_, _, first, rest⟩

theorem bind_of_ok {α β : Type} {action : SessionM α} {next : α → SessionM β}
    {middle : Session} {read : Context} {value : α}
    (ran : action session context = .ok (value, middle) read) :
    (action >>= next) session context = next value middle read := by
  change EStateM.bind (action session) (fun found => next found.1 found.2) context = _
  unfold EStateM.bind
  rw [ran]

theorem lift_ok_iff {α : Type} {action : Engine α} {last : Context} {found : α × Session} :
    (liftM action : SessionM α) session context = .ok found last ↔
      action context = .ok found.1 last ∧ found.2 = session := by
  constructor
  · intro ran
    obtain ⟨value, read, ran, rest⟩ := Engine.bind_ok_iff.mp ran
    cases rest
    exact ⟨ran, rfl⟩
  · rintro ⟨ran, rfl⟩
    exact Engine.bind_ok_iff.mpr ⟨_, _, ran, rfl⟩

theorem moveFile_of_files {file : InputFile} {rest : List InputFile}
    (opened : session.files = file :: rest) (fuel : Nat) (kind : TokenStream.Move) :
    moveFile fuel kind session = do
      let stream ← file.stream.move fuel kind
      return ((), { session with files := { file with stream } :: rest }) := by
  obtain ⟨options, includes, files⟩ := session
  cases opened
  funext context
  change EStateM.bind (EStateM.bind (file.stream.move fuel kind) _) _ context =
    EStateM.bind (file.stream.move fuel kind) _ context
  unfold EStateM.bind
  cases file.stream.move fuel kind context <;> rfl

section Limit

/-- Whether the limit on errors stops a session. -/
def stops (session : Session) (context : Context) : Bool :=
  session.options.errorLimit != 0 && !session.stopped &&
    decide (session.options.errorLimit ≤ context.sink.errorCount)

/-- Stops a session, with a report unless its files are all closed. -/
def stop (closed : Bool) : SessionM Unit := do
  modify fun session => { session with stopped := true }
  if !closed then report (← rawHead).location .tooManyErrors
  close

/-- A session that was stopped has no file left, and is otherwise as it was. -/
theorem of_stop {closed : Bool} {after : Session} {next : Context}
    (ran : stop closed session context = .ok ((), after) next) :
    after = closeFiles { session with stopped := true } := by
  obtain ⟨_, _, _, ⟨⟩, ran⟩ := bind_ok_iff.mp ran
  cases closed with
  | true =>
    cases ran
    rfl
  | false =>
    obtain ⟨_, _, _, looks, ran⟩ := bind_ok_iff.mp ran
    rw [Regime.rawHead_eq] at looks
    cases looks
    cases ran
    rfl

theorem checkErrorLimit_eq (session : Session) (context : Context) :
    checkErrorLimit session context =
      if stops session context then stop session.files.isEmpty session context
      else .ok ((), session) context := by
  change (if stops session context = true then _ else _ : SessionM Unit) session context = _
  split <;> rfl

theorem checkErrorLimit_of_goesOn (goesOn : stops session context = false) :
    checkErrorLimit session context = .ok ((), session) context := by
  rw [checkErrorLimit_eq, if_neg (by simp [goesOn])]

end Limit

section Equations

variable {session : Session} {file : InputFile} {rest : List InputFile} (fuel : Nat)

/-- Gives the next token, once it is settled. -/
def emit (fuel : Nat) : SessionM (Option Token) := do
  let token ← rawHead
  if token.endsLine || token.kind == .directive then return none
  return some (← takeRaw fuel)

def stepIn (fuel : Nat) (file : InputFile) : SessionM (Option Token) :=
  if file.stream.head.isEof then do
    leaveFile
    return none
  else if file.stream.head.kind == .directive then do
    handleDirective fuel
    return none
  else if file.stream.head.kind == .newline || file.isSkipping then do
    moveFile fuel .advance
    return none
  else do
    moveFile fuel .settle
    emit fuel

theorem stepIn_of_directive (opens : file.stream.head.kind = .directive) :
    stepIn fuel file = (do handleDirective fuel; return none) := by
  unfold stepIn
  rw [if_neg (by simp [Token.isEof, opens]), if_pos (by simp [opens])]

theorem stepIn_of_plain {passed : Bool} (goesOn : file.stream.head.isEof = false)
    (plain : file.stream.head.kind ≠ .directive)
    (passes : (file.stream.head.kind == .newline || file.isSkipping) = passed) :
    stepIn fuel file =
      if passed then (do moveFile fuel .advance; return none)
      else (do moveFile fuel .settle; emit fuel) := by
  unfold stepIn
  rw [if_neg (by simp [goesOn]), if_neg (by simpa using plain), passes]

/-- A step once the limit on errors was checked. -/
def proceed (fuel : Nat) : SessionM (Option Token) := do
  match (← get).files with
  | [] => return some (← get).finish
  | file :: _ => stepIn fuel file

theorem step_eq : step fuel = (do checkErrorLimit; proceed fuel) := rfl

theorem proceed_of_files (opened : session.files = file :: rest) :
    proceed fuel session = stepIn fuel file session := by
  obtain ⟨options, includes, files⟩ := session
  cases opened
  rfl

theorem step_of_files (opened : session.files = file :: rest)
    (goesOn : stops session context = false) :
    step fuel session context = stepIn fuel file session context := by
  rw [← proceed_of_files fuel opened, step_eq]
  exact bind_of_ok (checkErrorLimit_of_goesOn goesOn)

theorem proceed_of_no_files (closed : session.files = []) :
    proceed fuel session = pure (some session.finish, session) := by
  obtain ⟨options, includes, files⟩ := session
  cases closed
  rfl

theorem leaveFile_of_files (opened : session.files = file :: rest) :
    leaveFile session =
      (do
        reportOpen file.stream.head file.conditionals
        modify fun session =>
          { session with
            files := rest
            depth := session.depth - 1
            finish := if rest.isEmpty then file.stream.head else session.finish } :
        SessionM Unit) session := by
  obtain ⟨options, includes, files⟩ := session
  cases opened
  rfl

/-- Opens the source that the options stand for, unless a source was opened before. -/
def openCommandLine (fuel : Nat) (started : Bool) (commandLine : String) : SessionM Unit := do
  if !started then
    modify fun session => { session with started := true }
    if !commandLine.isEmpty then openFile fuel commandLine commandLineFile

theorem read_of_unpeeked (unpeeked : session.peeked = none) :
    read fuel session = readFresh fuel fuel session := by
  obtain ⟨options, includes, files, depth, onceOnly, inclusions, finish, peeked⟩ := session
  cases unpeeked
  rfl

theorem peek_of_unpeeked (unpeeked : session.peeked = none) :
    peek fuel session =
      (do
        let token ← readFresh fuel fuel
        modify fun session : Session => { session with peeked := some token }
        return token : SessionM Token) session := by
  obtain ⟨options, includes, files, depth, onceOnly, inclusions, finish, peeked⟩ := session
  cases unpeeked
  rfl

variable {token : Token} (context : Context)

theorem read_of_peeked (shown : session.peeked = some token) :
    read fuel session context = .ok (token, { session with peeked := none }) context := by
  obtain ⟨options, includes, files, depth, onceOnly, inclusions, finish, peeked⟩ := session
  cases shown
  rfl

theorem peek_of_peeked (shown : session.peeked = some token) :
    peek fuel session context = .ok (token, session) context := by
  obtain ⟨options, includes, files, depth, onceOnly, inclusions, finish, peeked⟩ := session
  cases shown
  rfl

end Equations

end Session

end Preproc
