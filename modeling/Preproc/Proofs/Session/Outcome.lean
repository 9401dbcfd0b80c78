import Preproc.Proofs.Session.Spot
import Preproc.Proofs.Source.Lines
import Preproc.Result

/-! # Sources without flaws, and what a run gathers

A source without flaws is opened without a trace: its tokens are known, and the session stands
before the first of them. What a run gives is gathered from what was read and from the state at its
end.
-/

namespace Preproc

open TokenStream (move readStack readWith)

variable {fuel : Nat}

section Flawless

variable {file source : String}

theorem scan_of_flawless (flawless : scanFlaws file source = []) :
    scan file source = (scanTokens file source).map fun token => { token } := by
  have each : ∀ scanned ∈ scan file source, scanned.flaw = none := by
    simpa [scanFlaws, List.filterMap_eq_nil_iff] using flawless
  have same : ∀ scanned ∈ scan file source, ({ token := scanned.token } : Scanned) = scanned := by
    rintro ⟨token, flaw⟩ member
    obtain rfl : flaw = none := each _ member
    rfl
  unfold scanTokens
  rw [List.map_map]
  exact ((List.map_congr_left same).trans (List.map_id _)).symm

open Source in
theorem terminated_placePieces {pieces : List Piece} (lineStart : Bool)
    (positions : List Position) (lastGap : List Trivia)
    (begins : ∀ piece ∈ pieces, ∃ front after, Begins front piece.lexeme after) :
    Terminated ((placePieces file lineStart positions pieces lastGap).map (·.token)) := by
  induction pieces generalizing lineStart positions with
  | nil => rfl
  | cons piece pieces ih =>
    obtain ⟨⟨front, after, here⟩, later⟩ := List.forall_mem_cons.mp begins
    exact (ih _ _ later).cons (solid_tokenOf here _ _ _).1

theorem terminated_scanTokens : Terminated (scanTokens file source) :=
  terminated_placePieces _ _ _ fun _ => Source.begins_of_mem_cut

theorem openSource_of_flawless (flawless : scanFlaws file source = []) :
    Scanner.openSource file source false = pure
      (.holding file none 0 (scanTokens file source)) := by
  have ends : Terminated (scanTokens file source) := terminated_scanTokens
  unfold Scanner.openSource
  rw [scan_of_flawless flawless]
  cases tokens : scanTokens file source with
  | nil =>
    rw [tokens] at ends
    exact ends.elim
  | cons token rest => rfl

end Flawless

/-- Where a file begins. -/
def Spot.start (path : String) : Spot :=
  ⟨path, path, none, none⟩

variable {tokens : List Token} {context : Context}

theorem Spot.expand_start (ends : Terminated tokens) (path : String) :
    TokenStream.expand (fuel + 1) (.scanner (.holding path none 0 tokens)) none =
      pure (.expansion ((Spot.start path).expansion tokens)) := by
  have reads : readStack (move (fuel + 1)) [.scanner (.holding path none 0 tokens)] =
      pure (presume none (firstOf tokens), [.scanner (.behind path none tokens)]) := by
    unfold readStack Stack.read readWith move TokenStream.moveWith
    simp only [pure_bind, Scanner.advance_holding ends, TokenStream.head, Scanner.head_holding]
  unfold TokenStream.expand TokenStream.expandWith
  rw [reads]
  rfl

namespace Session

variable {source path : String} {session : Session}

/-- The session with one more file, at its beginning. -/
def opened (session : Session) (path : String) (tokens : List Token) : Session :=
  { session with
    files := (Spot.start path).input tokens [] :: session.files
    depth := session.depth + 1 }

theorem openFile_of_flawless (flawless : scanFlaws path source = []) (context : Context) :
    openFile (fuel + 1) source path session context =
      .ok ((), session.opened path (scanTokens path source)) context := by
  refine bind_ok_iff.mpr ⟨.holding path none 0 (scanTokens path source), session, context,
    lift_ok_iff.mpr ⟨?_, rfl⟩, ?_⟩
  · exact congrFun (openSource_of_flawless flawless) context
  refine bind_ok_iff.mpr ⟨.expansion ((Spot.start path).expansion (scanTokens path source)),
    session,
    context, lift_ok_iff.mpr ⟨?_, rfl⟩, rfl⟩
  exact congrFun (Spot.expand_start terminated_scanTokens path) context

theorem openFile_of_no_fuel {next : Context} {found : Unit × Session}
    (ran : openFile 0 source path session context = .ok found next) : False := by
  obtain ⟨_, _, _, _, ran⟩ := bind_ok_iff.mp ran
  obtain ⟨_, _, _, expanded, _⟩ := bind_ok_iff.mp ran
  cases (lift_ok_iff.mp expanded).1

end Session

section Run

variable {options : Options} {includes : IncludeSystem} {source file : String}

/-- What is gathered at the end of a run. -/
def Result.gather (options : Options) (tokens : List Token) (session : Session)
    (context : Context) :
    Result where
  tokens
  diagnostics := context.sink.diagnostics.toList
  inclusions := session.inclusions.toList
  macros := context.table.describe false
  format := options.format

theorem preprocessWithin_of {session after : Session} {middle : Context}
    (opened : Session.push fuel source file { options, includes } options.context =
      .ok ((), session) middle)
    (read : Session.readAll fuel fuel session middle = .ok (tokens, after) context) :
    preprocessWithin fuel options includes source file =
      .ok (.gather options tokens after context) context := by
  have ran : preprocessWith fuel options source file { options, includes } options.context =
      .ok (.gather options tokens after context, after) context :=
    Engine.bind_ok_iff.mpr ⟨_, _, opened, Engine.bind_ok_iff.mpr ⟨_, _, read, rfl⟩⟩
  exact Engine.bind_ok_iff.mpr ⟨_, _, ran, rfl⟩

theorem of_preprocessWithin {result : Result}
    (ran : preprocessWithin fuel options includes source file = .ok result context) :
    ∃ tokens session middle, Session.push fuel source file { options, includes } options.context =
        .ok ((), session) middle ∧
      ∃ after, Session.readAll fuel fuel session middle = .ok (tokens, after) context ∧
        result = .gather options tokens after context := by
  have whole : ∃ found : Result × Session,
      preprocessWith fuel options source file { options, includes } options.context =
        .ok found context ∧ result = found.1 := by
    have ran : EStateM.map Prod.fst (preprocessWith fuel options source file { options, includes })
        options.context = .ok result context := ran
    unfold EStateM.map at ran
    split at ran
    next found last read =>
      cases ran
      exact ⟨found, read, rfl⟩
    next => cases ran
  obtain ⟨⟨_, _⟩, ran, rfl⟩ := whole
  obtain ⟨_, session, middle, opened, ran⟩ := Session.bind_ok_iff.mp ran
  obtain ⟨tokens, after, last, read, ran⟩ := Session.bind_ok_iff.mp ran
  cases ran
  exact ⟨tokens, session, middle, opened, _, read, rfl⟩

end Run

end Preproc
