import Preproc.Proofs.Session.Blind
import Preproc.Proofs.Session.Visited

/-! # Closing a session

A session is pushed onto, read, peeked into and closed in any order: `Session.Attained` are the
states that this leads to, each with the token that was shown by a peek and not taken since. Closing
drops all files, and with them whatever their streams hold back. It does not drop the token that was
shown. So exactly that token comes out of a closed session, before the ends.

Main statement: `Session.close_leaves_shown_token`.
-/

namespace Preproc.Session

/-- What is asked of a session. -/
inductive Request where
  | push (source path : String)
  | read
  | peek
  | close
  deriving DecidableEq

variable {shown : Option Token}

namespace Request

def isPush : Request → Bool
  | .push .. => true
  | _ => false

/-- Does what is asked, and gives the token that answers it, if any. -/
def perform (fuel : Nat) : Request → SessionM (List Token)
  | .push source path => do
    Session.push fuel source path
    return []
  | .read => return [← Session.read fuel]
  | .peek => return [← Session.peek fuel]
  | .close => do
    Session.close
    return []

/-- Does what is asked in order, and gives the answers. -/
def performAll (fuel : Nat) : List Request → SessionM (List Token)
  | [] => return []
  | request :: rest => do
    let answer ← request.perform fuel
    let answers ← performAll fuel rest
    return answer ++ answers

/-- The token that is shown and not yet taken when a request was answered. -/
def pending (shown : Option Token) (answer : List Token) : Request → Option Token
  | .push .. | .close => shown
  | .read => none
  | .peek => answer.head?

/-- The answers of a closed session: first what was shown, until it is taken, then ends. -/
def leftover (finish : Token) : (shown : Option Token) → List Request → List Token
  | _, [] => []
  | shown, .read :: rest => shown.getD finish :: leftover finish none rest
  | shown, .peek :: rest => shown.getD finish :: leftover finish (some (shown.getD finish)) rest
  | shown, _ :: rest => leftover finish shown rest

theorem isEof_leftover {finish : Token} (ended : finish.isEof = true)
    (shows : ∀ token ∈ shown, token.isEof = true) (requests : List Request) :
    ∀ token ∈ leftover finish shown requests, token.isEof = true := by
  have answer {shown : Option Token} (shows : ∀ token ∈ shown, token.isEof = true) :
      (shown.getD finish).isEof = true := by
    cases shown with
    | none => exact ended
    | some token => exact shows token rfl
  induction requests generalizing shown with
  | nil => simp [leftover]
  | cons request rest ih =>
    cases request with
    | push | close => exact ih shows
    | read => exact List.forall_mem_cons.mpr ⟨answer shows, ih (by simp)⟩
    | peek => exact List.forall_mem_cons.mpr ⟨answer shows, ih (by simpa using answer shows)⟩

end Request

/-- The states that requests lead to from a session that was created, each with the token that was
shown and not yet taken. -/
inductive Attained : Option Token → Session → Context → Prop
  | created {options : Options} {includes : IncludeSystem} {supplied : Option Sink}
      {session : Session} {context : Context}
      (created : Session.create options includes supplied = .ok (session, context)) :
      Attained none session context
  | performed {shown : Option Token} {session after : Session} {context next : Context}
      {answer : List Token} (attained : Attained shown session context) (fuel : Nat)
      (request : Request) (ran : request.perform fuel session context = .ok (answer, after) next) :
      Attained (request.pending shown answer) after next

variable {requests : List Request}

theorem Attained.performAll {session after : Session} {context next : Context}
    {fuel : Nat} {answers : List Token} (attained : Attained shown session context)
    (ran : Request.performAll fuel requests session context = .ok (answers, after) next) :
    ∃ shown', Attained shown' after next := by
  induction requests generalizing shown session context answers with
  | nil =>
    cases ran
    exact ⟨shown, attained⟩
  | cons request requests ih =>
    obtain ⟨answer, middle, between, first, ran⟩ := bind_ok_iff.mp ran
    obtain ⟨later, _, _, ran, ⟨⟩⟩ := bind_ok_iff.mp ran
    exact ih (attained.performed fuel request first) ran

/-- Whether a session that is closed gives nothing but ends until something is pushed. -/
def ClosesSilently (session : Session) (context : Context) : Prop :=
  ∀ requests : List Request, (∀ request ∈ requests, request.isPush = false) → ∀ fuel,
    ∃ answers after next,
      Request.performAll (fuel + 1) (.close :: requests) session context =
        .ok (answers, after) next ∧ ∀ token ∈ answers, token.isEof = true

variable {session after : Session} {context next : Context} {token : Token} {fuel : Nat}

section Shown

theorem peeked_of_step {given : Option Token}
    (ran : step fuel session context = .ok (given, after) next) : after.peeked =
      session.peeked := by
  obtain ⟨_, checked, middle, checks, proceeds⟩ := bind_ok_iff.mp ran
  have kept : checked.peeked = session.peeked := by
    rw [checkErrorLimit_eq] at checks
    split at checks
    · rw [of_stop checks]
      rfl
    · cases checks
      rfl
  rw [(blind_proceed fuel checked middle given after next proceeds).1.peeked, kept]

theorem peeked_of_readFresh {bound : Nat}
    (ran : readFresh fuel bound session context = .ok (token, after) next) :
    after.peeked = session.peeked := by
  induction bound generalizing session context with
  | zero => cases ran
  | succ bound ih =>
    obtain ⟨given, middle, between, stepped, ran⟩ := bind_ok_iff.mp ran
    have same := peeked_of_step stepped
    cases given with
    | none => rw [ih ran, same]
    | some given =>
      cases ran
      exact same

theorem Request.peeked_of_perform {request : Request} {answer : List Token}
    (ran : request.perform fuel session context = .ok (answer, after) next) :
    after.peeked = request.pending session.peeked answer := by
  cases request with
  | push source path =>
    obtain ⟨_, _, _, pushed, ⟨⟩⟩ := bind_ok_iff.mp ran
    exact (blind_push fuel source path _ _ _ _ _ pushed).1.peeked
  | close =>
    cases ran
    rfl
  | read =>
    obtain ⟨token, _, _, taken, ⟨⟩⟩ := bind_ok_iff.mp ran
    cases shown : session.peeked with
    | some _ =>
      rw [read_of_peeked fuel context shown] at taken
      cases taken
      rfl
    | none =>
      rw [read_of_unpeeked fuel shown] at taken
      rw [peeked_of_readFresh taken, shown, pending]
  | peek =>
    obtain ⟨token, _, _, taken, ⟨⟩⟩ := bind_ok_iff.mp ran
    cases shown : session.peeked with
    | some _ =>
      rw [peek_of_peeked fuel context shown] at taken
      cases taken
      exact shown
    | none =>
      rw [peek_of_unpeeked fuel shown] at taken
      obtain ⟨_, _, _, _, ⟨⟩⟩ := bind_ok_iff.mp taken
      rfl

theorem Attained.peeked (attained : Attained shown session context) : session.peeked = shown := by
  induction attained with
  | created created => rw [(of_create created).1]
  | performed attained fuel request ran ih => rw [Request.peeked_of_perform ran, ih]

end Shown

section Ends

theorem Attained.arises (attained : Attained shown session context) :
    session.Arises context := by
  induction attained with
  | created created => exact .created created
  | performed _ fuel request ran arises =>
    cases request with
    | push source path =>
      obtain ⟨_, _, _, pushed, ⟨⟩⟩ := bind_ok_iff.mp ran
      exact arises.push pushed
    | close =>
      cases ran
      exact arises.close
    | read =>
      obtain ⟨_, _, _, taken, ⟨⟩⟩ := bind_ok_iff.mp ran
      exact arises.read taken
    | peek =>
      obtain ⟨_, _, _, taken, ⟨⟩⟩ := bind_ok_iff.mp ran
      exact arises.peek taken

/-- No file is open, and this is what reading gives then. -/
structure Rests (finish : Token) (session : Session) : Prop where
  files : session.files = []
  finish : session.finish = finish

theorem Attained.isEof_closeFiles (attained : Attained shown session context) :
    session.closeFiles.finish.isEof = true :=
  (Regime.guarded_closeFiles Regime.governs_written.toLawful attained.arises.guarded.2).ended

variable {finish : Token}

theorem Rests.checkErrorLimit (rests : session.Rests finish) (context : Context) :
    ∃ after, Session.checkErrorLimit session context = .ok ((), after) context ∧
      after.Rests finish := by
  rw [checkErrorLimit_eq, rests.files]
  split
  · refine ⟨{ session with stopped := true }.closeFiles, rfl, rfl, ?_⟩
    simp [closeFiles, rests.files, rests.finish]
  · exact ⟨session, rfl, rests⟩

theorem Rests.readFresh (rests : session.Rests finish) (context : Context) (fuel bound : Nat) :
    ∃ after, Session.readFresh fuel (bound + 1) session context = .ok (finish, after) context ∧
      after.Rests finish := by
  obtain ⟨after, checks, rests⟩ := rests.checkErrorLimit context
  refine ⟨after, bind_ok_iff.mpr ⟨some finish, after, context, ?_, rfl⟩, rests⟩
  refine bind_ok_iff.mpr ⟨(), after, context, checks, ?_⟩
  change proceed fuel after context = _
  rw [proceed_of_no_files fuel rests.files, rests.finish]
  rfl

/-- **One request** to a session without files is answered by what was shown, or else by the end. -/
theorem Rests.perform (rests : session.Rests finish) (context : Context) (fuel : Nat)
    {request : Request} (noPush : request.isPush = false) :
    ∃ answer after, request.perform (fuel + 1) session context = .ok (answer, after) context ∧
      after.Rests finish ∧ ∀ requests, Request.leftover finish session.peeked
        (request :: requests) =
        answer ++ Request.leftover finish after.peeked requests := by
  cases request with
  | push => cases noPush
  | close =>
    refine ⟨[], session.closeFiles, rfl, ⟨rfl, ?_⟩, fun _ => rfl⟩
    simp [closeFiles, rests.files, rests.finish]
  | read =>
    cases shown : session.peeked with
    | some token =>
      have taken := read_of_peeked (fuel + 1) context shown
      exact ⟨[token], _, bind_ok_iff.mpr ⟨token, _, _, taken, rfl⟩,
        ⟨rests.files, rests.finish⟩, fun _ => rfl⟩
    | none =>
      obtain ⟨after, ran, rested⟩ := rests.readFresh context (fuel + 1) fuel
      have kept := peeked_of_readFresh ran
      refine ⟨[finish], after, bind_ok_iff.mpr ⟨finish, after, context, ?_, rfl⟩, rested, ?_⟩
      · rw [read_of_unpeeked (fuel + 1) shown, ran]
      · intro requests
        rw [kept, shown]
        rfl
  | peek =>
    cases shown : session.peeked with
    | some token =>
      have taken := peek_of_peeked (fuel + 1) context shown
      refine ⟨[token], session, bind_ok_iff.mpr ⟨token, _, _, taken, rfl⟩, rests, ?_⟩
      intro requests
      rw [shown]
      rfl
    | none =>
      obtain ⟨after, ran, rested⟩ := rests.readFresh context (fuel + 1) fuel
      refine ⟨[finish], { after with peeked := some finish },
        bind_ok_iff.mpr ⟨finish, _, context, ?_, rfl⟩, ⟨rested.files, rested.finish⟩,
        fun _ => rfl⟩
      rw [peek_of_unpeeked (fuel + 1) shown]
      exact bind_ok_iff.mpr ⟨finish, after, context, ran, rfl⟩

/-- **Any requests** to a session without files, as long as nothing is pushed. -/
theorem Rests.performAll (rests : session.Rests finish) (context : Context) (fuel : Nat)
    (noPush : ∀ request ∈ requests, request.isPush = false) :
    ∃ after, Request.performAll (fuel + 1) requests session context =
      .ok (Request.leftover finish session.peeked requests, after) context := by
  induction requests generalizing session with
  | nil => exact ⟨session, rfl⟩
  | cons request requests ih =>
    obtain ⟨first, others⟩ := List.forall_mem_cons.mp noPush
    obtain ⟨answer, middle, ran, rests, answers⟩ := rests.perform context fuel first
    obtain ⟨after, later⟩ := ih rests others
    refine ⟨after, bind_ok_iff.mpr ⟨answer, middle, context, ran, ?_⟩⟩
    rw [answers requests]
    exact bind_ok_iff.mpr ⟨_, after, context, later, rfl⟩

theorem Attained.performAll_close (attained : Attained shown session context)
    (fuel : Nat) (noPush : ∀ request ∈ requests, request.isPush = false) :
    ∃ after, Request.performAll (fuel + 1) (.close :: requests) session context =
      .ok (Request.leftover session.closeFiles.finish shown requests, after) context := by
  have rests : session.closeFiles.Rests session.closeFiles.finish := ⟨rfl, rfl⟩
  obtain ⟨after, ran⟩ := rests.performAll context fuel noPush
  have kept : session.closeFiles.peeked = shown := attained.peeked
  rw [kept] at ran
  exact ⟨after, bind_ok_iff.mpr ⟨[], _, _, rfl, bind_ok_iff.mpr ⟨_, after, context, ran, rfl⟩⟩⟩

end Ends

/-- **Closing leaves the token that was shown.** After any requests, closing a session and then
asking for tokens, as long as nothing is pushed, always succeeds and reports nothing. It gives the
token that was shown and not yet taken, once if it is taken, and the end from then on. So a session
that is closed gives nothing but ends exactly if no other token is waiting to be taken. -/
theorem close_leaves_shown_token {shown : Option Token} {session : Session} {context : Context}
    (attained : Attained shown session context) :
    (∃ finish, finish.isEof = true ∧ ∀ requests : List Request,
      (∀ request ∈ requests, request.isPush = false) → ∀ fuel, ∃ after,
        Request.performAll (fuel + 1) (.close :: requests) session context =
          .ok (Request.leftover finish shown requests, after) context) ∧
    (ClosesSilently session context ↔ ∀ token ∈ shown, token.isEof = true) := by
  have ended := attained.isEof_closeFiles
  have answers (requests : List Request) (noPush : ∀ request ∈ requests, request.isPush = false)
      (fuel : Nat) := attained.performAll_close fuel noPush
  refine ⟨⟨_, ended, answers⟩, ?_, ?_⟩
  · intro silent token waits
    have reads : ∀ request ∈ [Request.read], request.isPush = false := by simp [Request.isPush]
    obtain ⟨_, _, _, ran, ends⟩ := silent [.read] reads 0
    obtain ⟨after, same⟩ := answers [.read] reads 0
    rw [same, Option.mem_def.mp waits] at ran
    cases ran
    exact ends token (List.mem_singleton.mpr rfl)
  · intro ends requests noPush fuel
    obtain ⟨after, ran⟩ := answers requests noPush fuel
    exact ⟨_, after, context, ran, Request.isEof_leftover ended ends requests⟩

theorem attained_empty : Attained none { options := {}, includes := default } {} := by
  have created : Session.create {} default none =
    .ok ({ options := {}, includes := default }, {}) :=
    rfl
  exact .created created

theorem exists_shown {requests : List Request} {text : String}
    (passes : Engine.passes (fun found => found.2.peeked.any fun token =>
        token.lexeme == text && !token.isEof)
      (Request.performAll 9 requests { options := {}, includes := default } {}) = true) :
    ∃ token session context, Attained (some token) session context ∧ token.lexeme = text ∧
      token.isEof = false := by
  obtain ⟨⟨answers, session⟩, context, ran, shows⟩ := Engine.exists_ok_of_check passes
  obtain ⟨token, shown, plain⟩ := (Option.any_eq_true _ _).mp shows
  simp only [Bool.and_eq_true, beq_iff_eq, Bool.not_eq_true'] at plain
  obtain ⟨_, attained⟩ := attained_empty.performAll ran
  obtain rfl := attained.peeked.symm.trans shown
  exact ⟨token, session, context, attained, plain⟩

/-- Requests of which the last shows the second of three tokens. -/
def showsSecond : List Request :=
  [.push "a b c" "main.c", .read, .peek]

/-- The second token is shown when the session is closed: it comes out until it is taken. -/
theorem close_leaves_shown_token_second : ∃ (token finish : Token) (session : Session)
    (context : Context), Attained (some token) session context ∧ token.lexeme = "b" ∧
      finish.isEof = true ∧ ¬ ClosesSilently session context ∧ ∃ after,
        Request.performAll 9 [.close, .peek, .read, .peek, .read] session context =
          .ok ([token, token, finish, finish], after) context := by
  obtain ⟨token, session, context, attained, text, goesOn⟩ :=
    @exists_shown showsSecond "b" (by decide +kernel)
  obtain ⟨⟨finish, ended, answers⟩, silent⟩ := close_leaves_shown_token attained
  refine ⟨token, finish, session, context, attained, text, ended, fun closes => ?_,
    answers [.peek, .read, .peek, .read] (by decide) 8⟩
  have ends := silent.mp closes token rfl
  rw [goesOn] at ends
  cases ends

/-- **A closed session may give a token.** The one that was shown before comes out after closing. -/
theorem closed_session_gives_token : ∃ (shown : Option Token) (session : Session)
    (context : Context), Attained shown session context ∧ ∃ token after next,
      Request.performAll 9 [.close, .read] session context = .ok ([token], after) next ∧
        token.lexeme = "a" ∧ token.isEof = false := by
  obtain ⟨token, session, context, attained, text, goesOn⟩ :=
    @exists_shown [.push "a b" "main.c", .peek] "a" (by decide +kernel)
  obtain ⟨after, ran⟩ := attained.performAll_close 8
    (show ∀ request ∈ [Request.read], request.isPush = false by decide)
  exact ⟨_, session, context, attained, token, after, context, ran, text, goesOn⟩

end Preproc.Session
