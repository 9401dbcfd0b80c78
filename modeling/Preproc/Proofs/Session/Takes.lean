import Preproc.Proofs.Expansion.Grounded
import Preproc.Proofs.Session.Outcome
import Preproc.Proofs.Source.Seen

/-! # Actions on a line of a file

`Session.Takes` is the judgement about the actions of one session: from a context of some kind, an
action leaves a context of another kind and a value and a session as stated, and it fails only in
ways that are possible.

While a directive is handled, the file being read stands on a line: `Session.Line` fixes what comes
after the line and around it. The actions on raw tokens have their lemmas here. None of them goes
past the end of the line.
-/

namespace Preproc

open TokenStream (move readStack readWith)
open Engine (Steady)
open Regime (upcoming)

/-! ### What happens to the context -/

/-- The codes of the notices with which a definition line is refused. -/
def refusals : List String :=
  ["PPS-PP-0103", "PPS-PP-0203", "PPS-PP-0204", "PPS-PP-0207"]

/-- Whether a notice is no refusal. -/
def Notice.Mild (notice : Notice) : Prop :=
  notice.code ∉ refusals

instance : DecidablePred Notice.Mild :=
  fun notice => inferInstanceAs (Decidable (notice.code ∉ refusals))

namespace Context

/-- Nothing was told with which a definition line is refused. -/
def Mildly (context next : Context) : Prop :=
  ∃ told, context.Tells next told ∧ ∀ diagnostic ∈ told, ∀ code ∈ diagnostic.code, code ∉ refusals

theorem Mildly.refl (context : Context) : context.Mildly context :=
  ⟨[], by simp [Tells], by simp⟩

theorem Mildly.trans {context middle next : Context} (first : context.Mildly middle)
    (rest : middle.Mildly next) : context.Mildly next := by
  obtain ⟨told, tells, mild⟩ := first
  obtain ⟨told', tells', mild'⟩ := rest
  refine ⟨told ++ told', ?_, ?_⟩
  · rw [Tells, tells', tells, List.append_assoc]
  · intro diagnostic member
    exact (List.mem_append.mp member).elim (mild diagnostic) (mild' diagnostic)

/-- The table is as it was, and nothing was told with which a definition line is refused. -/
structure Calmly (context next : Context) : Prop where
  table : next.table = context.table
  mildly : context.Mildly next

theorem Calmly.refl (context : Context) : context.Calmly context :=
  ⟨rfl, .refl context⟩

theorem Calmly.trans {context middle next : Context} (first : context.Calmly middle)
    (rest : middle.Calmly next) : context.Calmly next :=
  ⟨rest.table.trans first.table, first.mildly.trans rest.mildly⟩

end Context

/-- What holds of contexts as long as nothing but the table counts. -/
def OfTable (kept : Context → Prop) : Prop :=
  ∀ context next : Context, kept context → next.table = context.table → kept next

/-- What goes on to hold of contexts where a definition line is not refused. -/
def Calm (kept : Context → Prop) : Prop :=
  ∀ context next : Context, kept context → context.Calmly next → kept next

theorem OfTable.calm {kept : Context → Prop} (constant : OfTable kept) : Calm kept :=
  fun context next holds calmly => constant context next holds calmly.table

theorem calm_calmly (context : Context) : Calm context.Calmly :=
  fun _ _ first rest => first.trans rest

namespace Engine.Runs

variable {α : Type} {fails : Failure → Prop} {kept : Context → Prop}

theorem report (calm : Calm kept) (place : Location) {notice : Notice}
    (mild : notice.Mild) :
    Runs fails kept (Engine.report place notice) (fun _ => kept) fun _ => True := by
  refine .of_ok (fun _ _ => rfl) trivial fun context start =>
    calm _ _ start ⟨rfl, [context.sink.diagnosticOf place notice], ?_, ?_⟩
  · simp [Context.Tells, Sink.record]
  · simpa [Sink.diagnosticOf] using show notice.code ∉ refusals from mild

end Engine.Runs

/-! ### Reading a scanner -/

namespace Scanner

variable {fails : Failure → Prop} {kept : Context → Prop} {scanner : Scanner}

theorem runs_meet (calm : Calm kept) (flaw : Option Flaw) :
    Engine.Runs fails kept (meet false flaw) (fun _ => kept) fun _ => True := by
  cases flaw with
  | none => exact .pure trivial
  | some flaw =>
    have mild : (Engine.noticeOf flaw.what).Mild := by
      cases flaw.what <;> simp [Engine.noticeOf, Notice.Mild, Notice.code, refusals]
    exact .report calm _ mild

/-- A scanner from which a token was taken, met without stopping at flaws. -/
structure Moved (scanner next : Scanner) : Prop where
  left : next.left = scanner.after
  lenient : next.strict = false

theorem runs_advance (calm : Calm kept) (lenient : scanner.strict = false)
    (ends : Terminated scanner.left) :
    Engine.Runs fails kept scanner.advance (fun _ => kept) scanner.Moved := by
  unfold advance
  split
  next ended => exact .pure ⟨(if_pos ended).symm, lenient⟩
  next goesOn =>
    rw [lenient]
    split
    next empty =>
      have eof : scanner.lookahead.isEof = true := by simpa [left, empty, Terminated] using ends
      exact absurd eof goesOn
    next next pending whole =>
      exact .bind (runs_meet calm _) fun _ _ =>
        .pure ⟨by simp [after, left, whole, goesOn], rfl⟩

theorem runs_openSource (calm : Calm kept) (file source : String) :
    Engine.Runs fails kept (openSource file source false) (fun _ => kept) fun scanner =>
      scanner.left = scanTokens file source ∧ scanner.strict = false := by
  have ends : Terminated (scanTokens file source) := terminated_scanTokens
  unfold openSource
  unfold scanTokens at ends ⊢
  split
  next empty =>
    rw [empty] at ends
    exact ends.elim
  next first pending whole =>
    rw [whole]
    exact .bind (runs_meet calm _) fun _ _ => .pure ⟨rfl, rfl⟩

end Scanner

/-- An expansion that shows the first of some tokens, where nothing is begun. The token may be shown
at another place. -/
def Expansion.At (tokens : List Token) (expansion : Expansion TokenStream) : Prop :=
  ∃ token rest map scanner, tokens = token :: rest ∧ expansion.lookahead = presume map token ∧
    expansion.sources = [.scanner scanner] ∧ scanner.strict = false ∧
    scanner.left = if token.isEof then tokens else rest

theorem Terminated.tail {token : Token} {rest : List Token} (ends : Terminated (token :: rest))
    (goesOn : token.isEof = false) : Terminated rest := by
  cases rest with
  | nil =>
    have eof : token.isEof = true := ends
    rw [goesOn] at eof
    cases eof
  | cons next rest => exact ends.2

namespace Expansion.At

variable {fails : Failure → Prop} {kept : Context → Prop} {expansion : Expansion TokenStream}
  {scanner : Scanner} {token : Token} {rest : List Token}

theorem lookahead (here : expansion.At (token :: rest)) :
    ∃ map, expansion.lookahead = presume map token := by
  obtain ⟨_, _, map, _, whole, shown, _⟩ := here
  cases whole
  exact ⟨map, shown⟩

theorem readStack_scanner (fuel : Nat) (scanner : Scanner) :
    readStack (move (fuel + 1)) [.scanner scanner] = do
      let next ← scanner.advance
      return (scanner.head, [.scanner next]) := by
  unfold readStack Stack.read
  rw [TokenStream.readWith_scanner]
  simp

theorem runs_readStack {fuel : Nat} (short : fuel = 0 → fails .outOfFuel) (calm : Calm kept)
    (lenient : scanner.strict = false) (ends : Terminated scanner.left) :
    Engine.Runs fails kept (readStack (move fuel) [.scanner scanner]) (fun _ => kept)
      fun found => ∃ next, found = (scanner.head, [.scanner next]) ∧ scanner.Moved next := by
  cases fuel with
  | zero => exact .throw (short rfl)
  | succ fuel =>
    rw [readStack_scanner]
    exact .bind (Scanner.runs_advance calm lenient ends) fun next moved =>
      .pure ⟨next, rfl, moved⟩

theorem of_scanner {next : Scanner} (shown : expansion.lookahead = scanner.head)
    (sources : expansion.sources = [.scanner next]) (moved : scanner.Moved next) :
    expansion.At scanner.left :=
  ⟨scanner.lookahead, _, scanner.lineMap, next, rfl, shown, sources, moved.lenient, moved.left⟩

end Expansion.At

/-! ### Actions of a session -/

namespace Session

/-- What an action of a session does, started in a context of one kind. -/
def Takes {α : Type} (fails : Failure → Prop) (before : Context → Prop) (session : Session)
    (action : SessionM α) (after : α → Context → Prop) (gives : α → Session → Prop) : Prop :=
  Engine.Runs fails before (action session) (fun found => after found.1) fun found =>
    gives found.1 found.2

namespace Takes

variable {α β : Type} {fails : Failure → Prop} {before : Context → Prop}
  {after after' : α → Context → Prop} {last : β → Context → Prop} {session : Session}
  {action : SessionM α} {gives gives' : α → Session → Prop} {wanted : β → Session → Prop}

theorem bind {next : α → SessionM β} (first : Takes fails before session action after gives)
    (rest : ∀ value read, gives value read →
      Takes fails (after value) read (next value) last wanted) :
    Takes fails before session (action >>= next) last wanted := by
  refine Engine.Runs.bind first ?_
  rintro ⟨value, read⟩ given
  exact rest value read given

theorem pass {next : α → SessionM β}
    (first : Takes fails before session action after fun _ read => read = session)
    (rest : ∀ value, Takes fails (after value) session (next value) last wanted) :
    Takes fails before session (action >>= next) last wanted := by
  refine bind first ?_
  rintro value _ rfl
  exact rest value

theorem value {value : α} (holds : gives value session)
    (contexts : ∀ context, before context → after value context) :
    Takes fails before session (pure value) after gives :=
  Engine.Runs.value holds contexts

theorem pure {value : α} (holds : gives value session) :
    Takes fails before session (pure value) (fun _ => before) gives :=
  Engine.Runs.pure holds

theorem imp (takes : Takes fails before session action after gives)
    (contexts : ∀ value context, after value context → after' value context)
    (values : ∀ value read, gives value read → gives' value read) :
    Takes fails before session action after' gives' :=
  Engine.Runs.imp takes (fun found => contexts found.1) fun found => values found.1 found.2

theorem before_imp {before' : Context → Prop}
    (takes : Takes fails before session action after gives)
    (contexts : ∀ context, before' context → before context) :
    Takes fails before' session action after gives :=
  Engine.Runs.before_imp takes contexts

theorem values (takes : Takes fails before session action after gives)
    (values : ∀ value read, gives value read → gives' value read) :
    Takes fails before session action after gives' :=
  takes.imp (fun _ _ => id) values

theorem lift {action : Engine α} {gives : α → Prop}
    (runs : Engine.Runs fails before action after gives) :
    Takes fails before session (liftM action) after fun value read =>
      gives value ∧ read = session :=
  Engine.Runs.bind runs fun _ given => Engine.Runs.value ⟨given, rfl⟩ fun _ => id

theorem throw {failure : Failure} (possible : fails failure) :
    Takes fails before session (throw failure : SessionM α) after gives := by
  have thrown : Engine.Runs fails before (MonadExcept.throw failure : Engine α) after fun _ =>
    False :=
    .throw possible
  exact (lift thrown).values fun _ _ impossible => impossible.1.elim

theorem get {next : Session → SessionM β}
    (rest : Takes fails before session (next session) last wanted) :
    Takes fails before session (MonadState.get >>= next) last wanted :=
  rest

variable {change : Session → Session}

theorem modifyThen {next : Unit → SessionM β}
    (rest : Takes fails before (change session) (next ()) last wanted) :
    Takes fails before session ((modify change : SessionM Unit) >>= next) last wanted :=
  rest

theorem modify {gives : Unit → Session → Prop} (holds : gives () (change session)) :
    Takes fails before session (modify change : SessionM Unit) (fun _ => before) gives :=
  Engine.Runs.pure holds

theorem head {next : Token → SessionM β}
    (rest : Takes fails before session (next (upcoming session)) last wanted) :
    Takes fails before session (rawHead >>= next) last wanted := by
  have shown : Takes fails before session rawHead (fun _ => before) fun token read =>
      token = upcoming session ∧ read = session := by
    unfold Takes
    rw [funext (Regime.rawHead_eq session)]
    exact .pure ⟨rfl, rfl⟩
  refine bind shown ?_
  rintro _ _ ⟨rfl, rfl⟩
  exact rest

theorem optional {condition : Prop} [Decidable condition] {next : SessionM β}
    {holds : Session → Prop}
    (first : condition → Takes fails before session action (fun _ => before) fun _ => holds)
    (without : ¬ condition → holds session)
    (rest : ∀ read, holds read → Takes fails before read next last wanted) :
    Takes fails before session (if condition then action >>= fun _ => next else next) last
      wanted := by
  split
  next taken => exact bind (first taken) fun _ read => rest read
  next leftOut => exact rest session (without leftOut)

theorem report (calm : Calm before) (place : Location) {notice : Notice}
    (mild : notice.Mild) :
    Takes fails before session (Session.report place notice) (fun _ => before) fun _ read =>
      read = session :=
  (lift (Engine.Runs.report calm place mild)).values fun _ _ => And.right

end Takes

section Files

variable {fails : Failure → Prop} {kept : Context → Prop} (calm : Calm kept) {session : Session}
  {fuel : Nat}

include calm

theorem takes_moveFile {path : String} {expansion : Expansion TokenStream}
    {frames : List Conditional} {below : List InputFile} {scanner : Scanner}
    (opened : session.files = ⟨path, .expansion expansion, frames⟩ :: below)
    (short : fuel ≤ 1 → fails .outOfFuel) (goesOn : expansion.lookahead.isEof = false)
    (sources : expansion.sources = [.scanner scanner]) (lenient : scanner.strict = false)
    (ends : Terminated scanner.left) :
    Takes fails kept session (moveFile fuel .advance) (fun _ => kept) fun _ read =>
      ∃ next, read = { session with files := ⟨path, .expansion { expansion with
          lookahead := scanner.head, sources := [.scanner next], leftAlone := false },
          frames⟩ :: below } ∧ scanner.Moved next := by
  unfold Takes
  rw [moveFile_of_files opened]
  cases fuel with
  | zero => exact .throw (short (Nat.zero_le 1))
  | succ fuel =>
    unfold move TokenStream.moveWith Expansion.advance
    dsimp only
    rw [goesOn, if_neg Bool.false_ne_true, sources]
    simp only [bind_assoc, pure_bind]
    refine .bind (Expansion.At.runs_readStack (fun small => short (by omega)) calm lenient ends) ?_
    rintro _ ⟨next, rfl, moved⟩
    exact .pure ⟨next, rfl, moved⟩

theorem takes_openFile (short : fuel = 0 → fails .outOfFuel) (source path : String) :
    Takes fails kept session (openFile fuel source path) (fun _ => kept) fun _ read =>
      ∃ expansion, read = { session with
          files := ⟨path, .expansion expansion, []⟩ :: session.files, depth := session.depth + 1 } ∧
        expansion.origin = none ∧ expansion.At (scanTokens path source) := by
  refine .bind (.lift (Scanner.runs_openSource calm path source)) ?_
  rintro scanner _ ⟨⟨left, lenient⟩, rfl⟩
  have ends : Terminated scanner.left := left ▸ terminated_scanTokens
  have expands : Engine.Runs fails kept (TokenStream.expand fuel (.scanner scanner) none)
      (fun _ => kept) fun stream => ∃ expansion, stream = .expansion expansion ∧
        expansion.origin = none ∧ expansion.At (scanTokens path source) := by
    refine .bind (Expansion.At.runs_readStack short calm lenient ends) ?_
    rintro _ ⟨next, rfl, moved⟩
    exact .pure ⟨_, rfl, rfl, left ▸ .of_scanner rfl rfl moved⟩
  refine .bind (.lift expands) ?_
  rintro _ _ ⟨⟨expansion, rfl, origin, here⟩, rfl⟩
  exact .modify ⟨expansion, rfl, origin, here⟩

end Files

/-! ### Standing on a line -/

/-- What it is for the file being read to stand at some tokens, with open conditionals. -/
abbrev Footing : Type :=
  List Conditional → List Token → Session → Prop

/-- Where raw tokens can be taken: the first token is shown, perhaps at another place, the
conditionals are those of the file being read, and taking a token leads to the next. Only where
there are too many tokens the bound on steps may be reached. -/
structure Footing.Firm (fails : Failure → Prop) (kept : Context → Prop) (fuel : Nat)
    (footing : Footing) : Prop where
  bounded : ∀ {frames tokens session}, footing frames tokens session → fuel ≤ tokens.length →
    fails .outOfFuel
  shows : ∀ {frames token rest session}, footing frames (token :: rest) session →
    ∃ map, upcoming session = presume map token
  file : ∀ {frames tokens session}, footing frames tokens session →
    ∃ file below, session.files = file :: below ∧ file.conditionals = frames ∧
      ∀ frames', footing frames' tokens
        { session with files := { file with conditionals := frames' } :: below }
  moves : ∀ {frames token rest session}, footing frames (token :: rest) session →
    token.isEof = false → Terminated (token :: rest) →
    Takes fails kept session (moveFile fuel .advance) (fun _ => kept) fun _ => footing frames rest

/-- The end of a line and what comes after it. The kinds of the tokens on the line may be limited.
-/
structure Remainder where
  /-- The newline, or the end of the file. -/
  ending : Token
  rest : List Token
  fits : TokenKind → Prop
  ends : ending.endsLine = true
  terminated : Terminated (ending :: rest)

namespace Footing

variable (footing : Footing) (line : Remainder) (frames : List Conditional)

/-- The file stands at the end of the line. -/
def AtEnd (session : Session) : Prop :=
  footing frames (line.ending :: line.rest) session

/-- The file stands inside the line or at its end. -/
def Inside (session : Session) : Prop :=
  ∃ left, (∀ token ∈ left, token.endsLine = false ∧ line.fits token.kind) ∧
    footing frames (left ++ line.ending :: line.rest) session

/-- The file stands at the end of the line, or before it at the last of some tokens. -/
def Among (tokens : List Token) (session : Session) : Prop :=
  ∃ left, left <:+ tokens ∧ footing frames (left ++ line.ending :: line.rest) session

/-- The line is over: the file stands behind its newline, or at the end of the file. -/
def Over (session : Session) : Prop :=
  (line.ending.kind = .newline ∧ footing frames line.rest session) ∨
    line.ending.kind ≠ .newline ∧ footing.AtEnd line frames session

variable {footing line frames} {session : Session} {tokens : List Token}

theorem AtEnd.inside (atEnd : footing.AtEnd line frames session) :
    footing.Inside line frames session :=
  ⟨[], by simp, atEnd⟩

theorem AtEnd.among (atEnd : footing.AtEnd line frames session) :
    footing.Among line frames tokens session :=
  ⟨[], List.nil_suffix, atEnd⟩

theorem Among.inside (within : ∀ token ∈ tokens, token.endsLine = false ∧ line.fits token.kind)
    (among : footing.Among line frames tokens session) : footing.Inside line frames session := by
  obtain ⟨left, suffix, stands⟩ := among
  exact ⟨left, fun token member => within token (suffix.mem member), stands⟩

end Footing

section Raw

variable {fails : Failure → Prop} {kept : Context → Prop} {footing : Footing}
  {fuel : Nat} (firm : footing.Firm fails kept fuel) {line : Remainder} {frames : List Conditional}
  {session : Session} {token : Token} {rest : List Token}

include firm

theorem Footing.Firm.atEnd (inside : footing.Inside line frames session)
    (ends : (upcoming session).endsLine = true) : footing.AtEnd line frames session := by
  obtain ⟨left, goesOn, stands⟩ := inside
  cases left with
  | nil => exact stands
  | cons token left =>
    obtain ⟨map, shown⟩ := firm.shows stands
    rw [shown, endsLine_presume, (goesOn token List.mem_cons_self).1] at ends
    cases ends

variable {tokens : List Token}

theorem Footing.Firm.modifyFrames (stands : footing frames tokens session)
    (change : List Conditional → List Conditional) :
    Takes fails kept session
      (modifyFile fun file => { file with conditionals := change file.conditionals })
      (fun _ => kept) fun _ => footing (change frames) tokens := by
  obtain ⟨file, below, opened, rfl, reframed⟩ := firm.file stands
  refine .modify ?_
  rw [opened]
  exact reframed _

theorem takes_takeToken (stands : footing frames (token :: rest) session)
    (goesOn : token.isEof = false) (ends : Terminated (token :: rest)) :
    Takes fails kept session (takeRaw fuel) (fun _ => kept) fun taken read =>
      taken = upcoming session ∧ footing frames rest read :=
  .head (.bind (firm.moves stands goesOn ends) fun _ _ stands => .pure ⟨rfl, stands⟩)

theorem takes_takeAmong (within : ∀ token ∈ tokens, token.endsLine = false)
    (among : footing.Among line frames tokens session)
    (goesOn : (upcoming session).endsLine = false) :
    Takes fails kept session (takeRaw fuel) (fun _ => kept) fun token read =>
      token = upcoming session ∧ footing.Among line frames tokens read := by
  obtain ⟨left, suffix, stands⟩ := among
  cases left with
  | nil =>
    obtain ⟨map, shown⟩ := firm.shows stands
    rw [shown, endsLine_presume, line.ends] at goesOn
    cases goesOn
  | cons token left =>
    have inside (other : Token) (member : other ∈ token :: left) : other.isEof = false :=
      isEof_of_inside (within other (suffix.mem member))
    have ends : Terminated (token :: (left ++ line.ending :: line.rest)) :=
      line.terminated.append inside
    apply (takes_takeToken firm stands (inside token List.mem_cons_self) ends).values
    rintro _ read ⟨rfl, stands⟩
    exact ⟨rfl, left, (List.suffix_cons token left).trans suffix, stands⟩

theorem takes_restFrom {left : List Token} (within : ∀ token ∈ left, token.endsLine = false)
    (stands : footing frames (left ++ line.ending :: line.rest) session) :
    Takes fails kept session (restOfLine fuel fuel) (fun _ => kept) fun found read =>
      NearTokens false left found ∧ footing.AtEnd line frames read := by
  have goes (bound : Nat) (short : bound ≤ left.length → fails .outOfFuel) :
      Takes fails kept session (restOfLine fuel bound) (fun _ => kept) fun found read =>
        NearTokens false left found ∧ footing.AtEnd line frames read := by
    induction bound generalizing session left with
    | zero => exact .throw (short (Nat.zero_le _))
    | succ bound ih =>
      refine .head ?_
      cases left with
      | nil =>
        obtain ⟨map, shown⟩ := firm.shows stands
        rw [shown, endsLine_presume, line.ends, if_pos rfl]
        exact .pure ⟨.nil, stands⟩
      | cons token left =>
        obtain ⟨map, shown⟩ := firm.shows stands
        obtain ⟨here, later⟩ := List.forall_mem_cons.mp within
        have ends : Terminated (token :: (left ++ line.ending :: line.rest)) :=
          line.terminated.append fun other member => isEof_of_inside (within other member)
        rw [shown, endsLine_presume, here, if_neg Bool.false_ne_true]
        refine .bind (takes_takeToken firm stands (isEof_of_inside here) ends) ?_
        rintro _ read ⟨rfl, stands⟩
        refine .bind (ih later stands fun few => short (Nat.succ_le_succ few)) ?_
        rintro found last ⟨near, atEnd⟩
        refine .pure ⟨.cons ?_ near, atEnd⟩
        rw [shown]
        exact .mk (kind_presume ..) (lexeme_presume ..) (leadingSpace_presume ..)
          (Location.near_false ..)
  exact goes fuel fun few => firm.bounded stands (Nat.le_trans few (by simp))

theorem takes_takeRaw (inside : footing.Inside line frames session)
    (goesOn : (upcoming session).endsLine = false) :
    Takes fails kept session (takeRaw fuel) (fun _ => kept) fun token read =>
      token = upcoming session ∧ footing.Inside line frames read := by
  obtain ⟨left, within, stands⟩ := inside
  apply (takes_takeAmong firm (fun token member => (within token member).1)
    ⟨left, List.suffix_rfl, stands⟩ goesOn).values
  rintro _ read ⟨rfl, rest, suffix, stands⟩
  exact ⟨rfl, rest, fun token member => within token (suffix.mem member), stands⟩

theorem takes_restOfLine (inside : footing.Inside line frames session) :
    Takes fails kept session (restOfLine fuel fuel) (fun _ => kept) fun _ =>
      footing.AtEnd line frames := by
  obtain ⟨left, within, stands⟩ := inside
  exact (takes_restFrom firm (fun token member => (within token member).1) stands).values
    fun _ _ => And.right

theorem takes_skipLine (inside : footing.Inside line frames session) :
    Takes fails kept session (skipLine fuel) (fun _ => kept) fun _ => footing.AtEnd line frames :=
  .bind (takes_restOfLine firm inside) fun _ _ atEnd => .pure atEnd

theorem takes_endLine {directive : Token} {ending : Ending} (left : ending ≠ .taken)
    (calm : ending = .checked → Calm kept) (inside : footing.Inside line frames session) :
    Takes fails kept session (endLine fuel directive ending) (fun _ => kept) fun _ =>
      footing.Over line frames := by
  have takesNewline {session : Session} (atEnd : footing.AtEnd line frames session) :
      Takes fails kept session
        (do if (← rawHead).kind == .newline then let _ ← takeRaw fuel : SessionM Unit)
        (fun _ => kept) fun _ => footing.Over line frames := by
    obtain ⟨map, shown⟩ := firm.shows atEnd
    refine .head ?_
    rw [shown, kind_presume]
    split
    next newline =>
      have newline : line.ending.kind = .newline := by simpa using newline
      exact .bind (takes_takeToken firm atEnd (isEof_of_newline newline) line.terminated)
        fun _ read taken => .pure (.inl ⟨newline, taken.2⟩)
    next other => exact .pure (.inr ⟨by simpa using other, atEnd⟩)
  cases ending with
  | taken => exact absurd rfl left
  | checked | unchecked =>
    refine .head ?_
    split
    next goesOn =>
      refine .optional (fun checked => .report (calm checked) _ ?_) (fun _ => rfl) ?_
      · simp [Notice.Mild, Notice.code, refusals]
      rintro _ rfl
      exact .bind (takes_skipLine firm inside) fun _ read atEnd => takesNewline atEnd
    next ends => exact takesNewline (firm.atEnd inside (by simpa using ends))

end Raw

/-! ### Lines of a file -/

/-- A line of a file, up to its end: what comes after it, and what is around the file. The kinds of
the tokens on the line may be limited. -/
structure Line where
  path : String
  origin : Option Token
  below : List InputFile
  includes : IncludeSystem
  /-- The newline, or the end of the file. -/
  ending : Token
  rest : List Token
  fits : TokenKind → Prop
  ends : ending.endsLine = true
  terminated : Terminated (ending :: rest)

namespace Line

/-- What is left of a file from the end of the line on. -/
def remainder (line : Line) : Remainder :=
  { line with }

/-- The file being read is the one of the line, with open conditionals, and stands at some tokens.
-/
structure Stands (line : Line) (frames : List Conditional) (tokens : List Token)
    (session : Session) : Prop where
  includes : session.includes = line.includes
  file : ∃ expansion, session.files = ⟨line.path, .expansion expansion, frames⟩ :: line.below ∧
    expansion.origin = line.origin ∧ expansion.At tokens

/-- The file stands at the end of the line. -/
def AtEnd (line : Line) (frames : List Conditional) (session : Session) : Prop :=
  line.Stands frames (line.ending :: line.rest) session

/-- The line is over: the file stands at its end, or behind its newline. -/
def Past (line : Line) (frames : List Conditional) (session : Session) : Prop :=
  line.AtEnd frames session ∨ line.ending.kind = .newline ∧ line.Stands frames line.rest session

variable {line : Line} {frames : List Conditional} {session : Session} {token : Token}
  {tokens rest : List Token}

/-- The file stands inside the line or at its end. -/
abbrev Inside (line : Line) : List Conditional → Session → Prop :=
  Footing.Inside line.Stands line.remainder

/-- The file stands at the end of the line, or before it at the last of some tokens. -/
abbrev Among (line : Line) : List Conditional → List Token → Session → Prop :=
  Footing.Among line.Stands line.remainder

theorem past_of_over (done : Footing.Over line.Stands line.remainder frames session) :
    line.Past frames session :=
  done.elim .inr fun atEnd => .inl atEnd.2

theorem firmWithin {fails : Failure → Prop} {kept : Context → Prop} (calm : Calm kept) (line : Line)
    (fuel : Nat) : Footing.Firm fails kept fuel fun frames tokens session =>
      (fuel ≤ tokens.length → fails .outOfFuel) ∧ line.Stands frames tokens session where
  bounded stands := stands.1
  shows stands := by
    obtain ⟨expansion, opened, _, here⟩ := stands.2.file
    unfold upcoming
    rw [opened]
    exact here.lookahead
  file stands := by
    obtain ⟨short, includes, expansion, opened, origin, here⟩ := stands
    exact ⟨_, _, opened, rfl, fun _ => ⟨short, includes, expansion, rfl, origin, here⟩⟩
  moves stands goesOn ends := by
    obtain ⟨short, includes, expansion, opened, origin, here⟩ := stands
    obtain ⟨_, _, map, scanner, whole, shown, sources, lenient, left⟩ := here
    cases whole
    rw [goesOn, if_neg Bool.false_ne_true] at left
    refine (takes_moveFile calm opened (fun few => short (Nat.le_trans few (by simp)))
      (by simp [shown, goesOn]) sources lenient (left ▸ ends.tail goesOn)).values ?_
    rintro _ _ ⟨next, rfl, moved⟩
    exact ⟨fun few => short (Nat.le_succ_of_le few), includes, _, rfl, origin,
      left ▸ .of_scanner rfl rfl moved⟩

theorem firm {fails : Failure → Prop} (bounded : fails .outOfFuel) {kept : Context → Prop}
    (calm : Calm kept) (line : Line) (fuel : Nat) : Footing.Firm fails kept fuel line.Stands := by
  simpa [bounded] using @firmWithin fails kept calm line fuel

end Line

end Session

end Preproc
