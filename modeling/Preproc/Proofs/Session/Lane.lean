import Preproc.Proofs.Expansion.Steady
import Preproc.Proofs.Macro.Table
import Preproc.Proofs.Session.Spot

/-! # Two sessions in their lanes

Two sessions may go through a directive line together although they are not the same: what follows
the line may differ, or the conditionals around those of the line, or the files below, or what the
sessions make of errors. A `Lane` says what stays alike inside a line and behind it, and
`Lane.Lawful` what the actions on raw tokens have to leave alike. Then each directive does the same
on both sides; what it does to the number of conditionals that are open inside is known from its
name.

Main statement: `Session.linked_handleNamed`.
-/

namespace Preproc

open Engine (Echoes Growing Steady)
open Regime (upcoming)

/-- The open conditionals of two sides are the same, apart from given ones around a number of
others. -/
def Framing (tails : Option (List Conditional × List Conditional)) (depth : Nat)
    (frames frames' : List Conditional) : Prop :=
  match tails with
  | none => frames' = frames
  | some (tail, tail') => ∃ nested : List Conditional, nested.length = depth ∧
      frames = nested ++ tail ∧ frames' = nested ++ tail'

namespace Framing

variable {tails : Option (List Conditional × List Conditional)} {depth : Nat}
  {frames frames' : List Conditional} (framed : Framing tails depth frames frames')

include framed

theorem isSkipping_eq (shown : ∀ {tail tail'}, tails = some (tail, tail') →
      Conditional.isSkipping tail' = Conditional.isSkipping tail) :
    Conditional.isSkipping frames' = Conditional.isSkipping frames := by
  cases tails with
  | none => exact congrArg _ framed
  | some pair =>
    obtain ⟨nested, _, rfl, rfl⟩ := framed
    cases nested with
    | nil => exact shown rfl
    | cons frame nested => rfl

theorem push (frame : Conditional) :
    Framing tails (depth + 1) (frame :: frames) (frame :: frames') := by
  cases tails with
  | none => exact congrArg _ framed
  | some pair =>
    obtain ⟨nested, length, rfl, rfl⟩ := framed
    exact ⟨frame :: nested, by simp [length], rfl, rfl⟩

variable (reaches : tails = none ∨ 0 < depth)

include reaches

theorem head?_eq : frames'.head? = frames.head? := by
  cases tails with
  | none => exact congrArg _ framed
  | some pair =>
    obtain ⟨nested, rfl, rfl, rfl⟩ := framed
    cases nested with
    | nil => simp at reaches
    | cons frame nested => rfl

theorem tail : Framing tails (depth - 1) frames.tail frames'.tail := by
  cases tails with
  | none => exact congrArg _ framed
  | some pair =>
    obtain ⟨nested, rfl, rfl, rfl⟩ := framed
    cases nested with
    | nil => simp at reaches
    | cons frame nested => exact ⟨nested, by simp, rfl, rfl⟩

theorem replace
    (frame : Conditional) : Framing tails depth (frame :: frames.tail) (frame :: frames'.tail) := by
  have replaced := (framed.tail reaches).push frame
  cases tails with
  | none => exact replaced
  | some pair =>
    have positive : 0 < depth := by simpa using reaches
    rwa [Nat.sub_add_cancel positive] at replaced

theorem tails_eq_none (empty : frames.head? = none) : tails = none := by
  cases tails with
  | none => rfl
  | some pair =>
    obtain ⟨nested, rfl, rfl, _⟩ := framed
    cases nested with
    | nil => simp at reaches
    | cons frame nested => cases empty

end Framing

namespace Session

/-- The open conditionals of the file being read. -/
def topFrames (session : Session) : List Conditional :=
  match session.files with
  | [] => []
  | file :: _ => file.conditionals

/-- The session with another file in place of the one being read. -/
def retop (change : InputFile → InputFile) (session : Session) : Session :=
  match session.files with
  | [] => session
  | file :: rest => { session with files := change file :: rest }

/-- The session with other open conditionals. -/
def reframe (change : List Conditional → List Conditional) : Session → Session :=
  retop fun file => { file with conditionals := change file.conditionals }

theorem reframe_id (session : Session) : session.reframe id = session := by
  obtain ⟨options, includes, files⟩ := session
  cases files <;> rfl

/-- The session whose file being read is to be read only once. -/
def markOnce (session : Session) : Session :=
  match session.files with
  | [] => session
  | file :: _ => { session with onceOnly := file.path :: session.onceOnly }

/-- The path of the file being read. -/
def includer (session : Session) : String :=
  match session.files with
  | [] => ""
  | file :: _ => file.path

/-- A relation between two sessions. -/
abbrev Pairing := Session → Session → Prop

/-- Where an action succeeds in the first of two sessions, and that counts, it succeeds in the
second, gives the same and tells the same. -/
structure Linked {α : Type} (realm : Realm) (before : Pairing) (action : SessionM α)
    (after : α → Pairing := fun _ => before) : Prop where
  grows : realm.quiet = true → ∀ session, Growing (action session)
  echoes : ∀ {session session'}, before session session' →
    Echoes realm (action session) (action session') fun found found' =>
      found'.1 = found.1 ∧ after found.1 found.2 found'.2

namespace Linked

variable {α β : Type} {realm : Realm} {before before' middle : Pairing}
  {action : SessionM α} {after after' : α → Pairing}

theorem of_echoes {fits : MacroTable → Prop}
    (echoes : ∀ session session', before session session' →
      Echoes (.of fits) (action session) (action session') fun found found' =>
        found'.1 = found.1 ∧ after found.1 found.2 found'.2) :
    Linked (.of fits) before action after :=
  ⟨fun quiet => absurd quiet Bool.false_ne_true, echoes _ _⟩

theorem run {session session' middle : Session} {context context' next : Context} {value : α}
    (linked : Linked realm before action after) (paired : before session session')
    (fit : realm.fits context.table) (same : context'.table = context.table)
    (ran : action session context = .ok (value, middle) next)
    (counts : realm.Counts next := by exact fun quiet => absurd quiet Bool.false_ne_true) :
    ∃ middle' next', action session' context' = .ok (value, middle') next' ∧
      context.Echo context' next next' ∧ realm.fits next.table ∧ after value middle middle' := by
  obtain ⟨⟨value', middle'⟩, next', ran', echo, fit, given, paired⟩ :=
    linked.echoes paired context context' (value, middle) next fit same ran counts
  subst given
  exact ⟨middle', next', ran', echo, fit, paired⟩

theorem bind {next : α → SessionM β} {last : β → Pairing} (first : Linked realm before action after)
    (rest : ∀ value, Linked realm (after value) (next value) last) :
    Linked realm before (action >>= next) last where
  grows quiet session := (first.grows quiet session).bind fun found =>
    (rest found.1).grows quiet found.2
  echoes paired := by
    refine Echoes.bind (first.echoes paired) ?_ fun found middle _ _ ran counts quiet => ?_
    · rintro ⟨value, middle⟩ ⟨value', middle'⟩ ⟨rfl, paired⟩
      exact (rest _).echoes paired
    · obtain ⟨told, hears⟩ := ((rest found.1).grows quiet found.2).hears ran
      exact counts.of_hears hears quiet

theorem pure {value : α} (kept : ∀ session session', before session session' →
    after value session session') : Linked realm before (pure value) after where
  grows _ session := .pure (value, session)
  echoes paired := .pure ⟨rfl, kept _ _ paired⟩

theorem idle {value : α} : Linked realm before (Pure.pure value) :=
  pure fun _ _ => id

theorem throw (failure : Failure) : Linked realm before (throw failure : SessionM α) after where
  grows _ _ := .throw failure
  echoes _ := .throw failure

theorem imp (linked : Linked realm before action after)
    (first : ∀ session session', before' session session' → before session session')
    (last : ∀ value session session', after value session session' →
      after' value session session') :
    Linked realm before' action after' where
  grows := linked.grows
  echoes paired := (linked.echoes (first _ _ paired)).imp fun _ _ found =>
    ⟨found.1, last _ _ _ found.2⟩

theorem pre (linked : Linked realm before action after)
    (first : ∀ session session', before' session session' → before session session') :
    Linked realm before' action after :=
  linked.imp first fun _ _ _ => id

theorem post (linked : Linked realm before action after)
    (last : ∀ value session session', after value session session' →
      after' value session session') :
    Linked realm before action after' :=
  linked.imp (fun _ _ => id) last

theorem since {fact : Prop}
    (holds : ∀ session session', before' session session' → fact ∧ before session session')
    (linked : Linked realm (fun session session' => fact ∧ before session session') action after) :
    Linked realm before' action after :=
  linked.pre holds

theorem frame (linked : Linked realm before action after) (fact : Prop) :
    Linked realm (fun session session' => fact ∧ before session session') action
      fun value session session' => fact ∧ after value session session' where
  grows := linked.grows
  echoes paired := (linked.echoes paired.2).imp fun _ _ found => ⟨found.1, paired.1, found.2⟩

/-- An action that begins with a view of the session. -/
theorem see {ν : Type} {view : Session → ν} {next : ν → SessionM α}
    (sees : ∀ session, action session = next (view session) session)
    (same : ∀ session session', before session session' → view session' = view session)
    (rest : ∀ seen, Linked realm (fun session session' =>
      before session session' ∧ view session = seen) (next seen) after) :
    Linked realm before action after where
  grows quiet session := sees session ▸ (rest _).grows quiet session
  echoes {session session'} paired := by
    rw [sees, sees, same _ _ paired]
    exact (rest (view session)).echoes ⟨paired, rfl⟩

theorem lift {action : Engine α} (growing : Growing action)
    (echoes : ∀ session session', before session session' →
      Echoes realm action action fun value value' => value' = value) :
    Linked realm before (liftM action) fun value session session' =>
      before session session' ∧ realm.Gives action value where
  grows _ _ := growing.bind fun _ => .pure _
  echoes paired := by
    refine Echoes.bind (echoes _ _ paired).gives ?_ ?_
    · rintro value _ ⟨rfl, gives⟩
      exact .pure ⟨rfl, paired, gives⟩
    · rintro _ _ _ _ ⟨⟩ counts
      exact counts

theorem gives {action : Engine α} (steady : Steady action) :
    Linked realm before (liftM action) fun value session session' =>
      before session session' ∧ realm.Gives action value :=
  lift steady.growing fun _ _ _ => steady.echoes

theorem lift_steady {action : Engine α} (steady : Steady action) :
    Linked realm before (liftM action) :=
  (gives steady).imp (fun _ _ => id) fun _ _ _ => And.left

/-- Where only quiet runs count, nothing is reported. -/
theorem complain (place : Location) {notice : Notice} (other : notice ≠ .tooManyErrors) :
    Linked realm before (Session.report place notice) fun _ session session' =>
      before session session' ∧ realm.quiet = false := by
  refine (gives (.report place other)).imp (fun _ _ => id) fun _ _ _ here => ⟨here.1, ?_⟩
  obtain ⟨_, context, _, _, ⟨⟩, counts⟩ := here
  cases quiet : realm.quiet with
  | false => rfl
  | true => exact absurd (counts quiet) (by simp [Sink.record])

theorem report (place : Location) {notice : Notice} (other : notice ≠ .tooManyErrors) :
    Linked realm before (Session.report place notice) :=
  lift_steady (.report place other)

theorem table : Linked realm before Session.table :=
  lift_steady (.look id)

theorem look {view : Session → α}
    (looks : ∀ session, action session = Pure.pure (view session, session))
    (same : ∀ session session', before session session' → view session' = view session) :
    Linked realm before action fun value session session' =>
      before session session' ∧ view session = value := by
  have shows (seen : α) : Linked realm (fun session session' => before session session' ∧
      view session = seen) (Pure.pure seen) fun value session session' =>
        before session session' ∧ view session = value := pure fun _ _ => id
  exact see looks same shows

theorem modify {change : Session → Session} {after : Pairing}
    (kept : ∀ session session', before session session' →
      after (change session) (change session')) :
    Linked realm before (modify change : SessionM Unit) fun _ => after where
  grows _ session := .pure ((), change session)
  echoes paired := .pure ⟨rfl, kept _ _ paired⟩

theorem head (same : ∀ session session', before session session' →
      upcoming session' = upcoming session) :
    Linked realm before rawHead fun token session session' =>
      before session session' ∧ upcoming session = token :=
  look (fun session => funext (Regime.rawHead_eq session)) same

theorem take {fuel : Nat} {after : Token → Pairing}
    (same : ∀ session session', before session session' → upcoming session' = upcoming session)
    (moves : ∀ token, Linked realm (fun session session' =>
      before session session' ∧ upcoming session = token) (moveFile fuel .advance)
      fun _ => after token) :
    Linked realm before (takeRaw fuel) after :=
  bind (head same) fun token => bind (moves token) fun _ => pure fun _ _ => id

theorem optional {condition : Prop} [Decidable condition] {next : SessionM β} {last : β → Pairing}
    (first : condition → Linked realm before action fun _ => middle)
    (kept : ¬ condition → ∀ session session', before session session' → middle session session')
    (rest : Linked realm middle next last) :
    Linked realm before (if condition then action >>= fun _ => next else next) last := by
  split
  next taken => exact bind (first taken) fun _ => rest
  next left => exact rest.imp (kept left) fun _ _ _ => id

end Linked

end Session

/-- A stream that is made for a file in runs that count. -/
def Realm.Opens (realm : Realm) (path : String) (stream : TokenStream) : Prop :=
  ∃ source scanner fuel, realm.Gives (Scanner.openSource path source false) scanner ∧
    realm.Gives (TokenStream.expand fuel (.scanner scanner) none) stream

open Session (Pairing Linked Ending)

namespace Realm

/-- What is known of the names of parameters. -/
def Declares (realm : Realm) (declared : List Parameter) : Prop :=
  realm.quiet = true → (declared.map (·.name)).Nodup

/-- Tables fit whatever is defined from known tokens. -/
structure Builds (realm : Realm) (known : Token → Prop) : Prop where
  defines : ∀ {table name parameters body finish definition}, realm.fits table →
    (∀ declared ∈ parameters, realm.Declares declared) →
    (∀ token ∈ body, known token ∧ token.endsLine = false) → known finish →
    realm.Gives (Engine.build name parameters body finish.location) definition →
    realm.fits (table.define definition)
  undefines : ∀ {table} (name : String), realm.fits table → realm.fits (table.undefine name)

theorem builds_any {known : Token → Prop} : any.Builds known :=
  ⟨fun _ _ _ _ _ => trivial, fun _ _ => trivial⟩

end Realm

/-- How two sessions go through a line: what is alike inside of it with a number of conditionals
open, and behind it, the conditionals around those that are the same, and what is known of the
tokens. -/
structure Lane where
  within : (depth : Nat) → Pairing
  behind : (depth : Nat) → Pairing
  tails : Option (List Conditional × List Conditional)
  token : Token → Prop := fun _ => True

namespace Lane

variable (lane : Lane) (depth : Nat)

/-- Sessions in a line at a token. -/
def At (token : Token) : Pairing :=
  fun session session' => lane.within depth session session' ∧ upcoming session = token

/-- What is known of a token inside a line. -/
def Known (token : Token) : Prop :=
  lane.token token ∧ token.endsLine = false

/-- Sessions at the end of a line. -/
def Ends : Pairing :=
  fun session session' => lane.within depth session session' ∧ (upcoming session).endsLine = true

/-- Sessions at the end of a line, or behind it. -/
def Closed : Pairing :=
  fun session session' => lane.Ends depth session session' ∨ lane.behind depth session session'

/-- Sessions in a line that is still to be ended. -/
def Handled (ending : Ending) : Pairing :=
  fun session session' => ending ≠ .taken ∧ lane.within depth session session'

/-- Whether the innermost conditional is the same on both sides. -/
def Reaches : Prop :=
  lane.tails = none ∨ 0 < depth

/-- What the actions on raw tokens leave alike. The conditionals around skip the same lines, and
what is defined from known tokens fits. -/
structure Lawful (realm : Realm) : Prop where
  head : ∀ {depth session session'}, lane.within depth session session' →
    upcoming session' = upcoming session
  token : ∀ {depth session session'}, lane.within depth session session' →
    lane.token (upcoming session) := by intros; trivial
  advance : ∀ {depth token}, token.endsLine = false → ∀ fuel,
    Linked realm (lane.At depth token) (Session.moveFile fuel .advance) fun _ => lane.within depth
  turn : ∀ {depth token}, token.kind = .newline → ∀ fuel,
    Linked realm (lane.At depth token) (Session.moveFile fuel .advance) fun _ => lane.behind depth
  framed : ∀ {depth session session'}, lane.within depth session session' →
    Framing lane.tails depth session.topFrames session'.topFrames
  shown : ∀ {tail tail'}, lane.tails = some (tail, tail') →
    Conditional.isSkipping tail' = Conditional.isSkipping tail
  reframe : ∀ {depth depth' session session'} (change : List Conditional → List Conditional),
    lane.within depth session session' →
    Framing lane.tails depth' (change session.topFrames) (change session'.topFrames) →
    lane.within depth' (session.reframe change) (session'.reframe change)
  renumber : ∀ {depth session session'} (line : Nat) (file : Option String),
    lane.within depth session session' → (upcoming session).endsLine = true →
    lane.within depth
      (session.retop fun input => { input with stream := input.stream.renumber line file })
      (session'.retop fun input => { input with stream := input.stream.renumber line file })
  whole : realm.quiet = true → lane.tails = none := by
    exact fun quiet => absurd quiet Bool.false_ne_true
  builds : realm.Builds lane.token := by exact Realm.builds_any

end Lane

namespace Session

variable {realm : Realm} {lane : Lane} (lawful : lane.Lawful realm) {depth : Nat}
  {before : Pairing} {token : Token} (fuel : Nat)

section Raw

theorem Linked.here {α : Type} {action : SessionM α} {after : α → Pairing}
    (linked : Linked realm (lane.within depth) action after) :
    Linked realm (lane.At depth token) action after :=
  linked.imp (fun _ _ here => here.1) fun _ _ _ => id

theorem Linked.atEnd {α : Type} {action : SessionM α} {after : α → Pairing}
    (linked : Linked realm (lane.within depth) action after) :
    Linked realm (lane.Ends depth) action after :=
  linked.imp (fun _ _ here => here.1) fun _ _ _ => id

include lawful

theorem linked_rawHead : Linked realm (lane.within depth) rawHead (lane.At depth) :=
  .head fun _ _ => lawful.head

theorem linked_takeKnown (goesOn : token.endsLine = false) :
    Linked realm (lane.At depth token) (takeRaw fuel) fun taken session session' =>
      lane.Known taken ∧ lane.within depth session session' := by
  refine .take (fun _ _ here => lawful.head here.1) fun taken => ?_
  refine ((lawful.advance goesOn fuel).frame (lane.Known taken)).imp ?_ fun _ _ _ => id
  rintro session session' ⟨here, rfl⟩
  exact ⟨⟨lawful.token here.1, here.2 ▸ goesOn⟩, here⟩

theorem linked_takeRaw (goesOn : token.endsLine = false) :
    Linked realm (lane.At depth token) (takeRaw fuel) fun _ => lane.within depth :=
  (linked_takeKnown lawful fuel goesOn).imp (fun _ _ => id) fun _ _ _ => And.right

theorem linked_knownLine (bound : Nat) :
    Linked realm (lane.within depth) (restOfLine fuel bound) fun tokens session session' =>
      (∀ token ∈ tokens, lane.Known token) ∧ lane.Ends depth session session' := by
  induction bound with
  | zero => exact .throw _
  | succ bound ih =>
    refine .bind (linked_rawHead lawful) fun token => ?_
    split
    next ends => exact .pure fun _ _ here => ⟨by simp, here.1, here.2 ▸ ends⟩
    next goesOn =>
      refine .bind (linked_takeKnown lawful fuel (by simpa using goesOn)) fun taken => ?_
      exact .bind (ih.frame (lane.Known taken)) fun rest => .pure fun _ _ here =>
        ⟨List.forall_mem_cons.mpr ⟨here.1, here.2.1⟩, here.2.2⟩

theorem linked_restOfLine (bound : Nat) :
    Linked realm (lane.within depth) (restOfLine fuel bound) fun _ => lane.Ends depth :=
  (linked_knownLine lawful fuel bound).imp (fun _ _ => id) fun _ _ _ => And.right

theorem linked_skipLine :
    Linked realm (lane.within depth) (skipLine fuel) fun _ => lane.Ends depth :=
  .bind (linked_restOfLine lawful fuel fuel) fun _ => .idle

theorem linked_endLine (directive : Token) {ending : Ending} (left : ending ≠ .taken) :
    Linked realm (lane.within depth) (endLine fuel directive ending) fun _ =>
      lane.Closed depth := by
  have turns {token : Token} (newline : token.kind = .newline) :
      Linked realm (lane.At depth token) (takeRaw fuel) fun _ => lane.behind depth :=
    .take (fun _ _ here => lawful.head here.1) fun _ =>
      (lawful.turn newline fuel).imp (fun _ _ => And.left) fun _ _ _ => id
  have takesNewline : Linked realm (lane.Ends depth)
      (do if (← rawHead).kind == .newline then let _ ← takeRaw fuel : SessionM Unit)
      fun _ => lane.Closed depth := by
    refine .bind (.head fun _ _ here => lawful.head here.1) fun next => ?_
    split
    next newline =>
      refine .bind ((turns (by simpa using newline)).imp (fun _ _ here => ⟨here.1.1, here.2⟩)
        fun _ _ _ => id) fun _ => .pure fun _ _ => .inr
    next => exact .pure fun _ _ here => .inl here.1
  have ends : Linked realm (lane.within depth) (do
      let next ← rawHead
      if !next.endsLine then
        if ending = .checked then report next.location (.extraTokens directive.lexeme)
        skipLine fuel
      if (← rawHead).kind == .newline then let _ ← takeRaw fuel : SessionM Unit)
      fun _ => lane.Closed depth := by
    refine .bind (linked_rawHead lawful) fun next => ?_
    split
    · refine .optional (fun _ => .report _ (by simp)) (fun _ _ _ => id) ?_
      exact .bind (linked_skipLine lawful fuel).here fun _ => takesNewline
    next ends =>
      exact takesNewline.imp (fun _ _ here => ⟨here.1, here.2 ▸ by simpa using ends⟩) fun _ _ _ =>
        id
  cases ending with
  | taken => exact absurd rfl left
  | checked => exact ends
  | unchecked => exact ends

theorem linked_isSkipping {holds : Pairing}
    (within : ∀ session session', holds session session' → lane.within depth session session') :
    Linked realm holds isSkipping fun _ => holds := by
  have looks (session : Session) :
      isSkipping session = pure (Conditional.isSkipping session.topFrames, session) := by
    obtain ⟨options, includes, files⟩ := session
    cases files <;> rfl
  refine (Linked.look looks fun session session' holds => ?_).imp (fun _ _ => id) fun _ _ _ =>
    And.left
  exact (lawful.framed (within _ _ holds)).isSkipping_eq lawful.shown

theorem linked_expectName (directive : Token) :
    Linked realm (lane.within depth) (expectName fuel directive) := by
  refine .bind (linked_rawHead lawful) fun next => ?_
  split
  next identifier =>
    exact .bind (linked_takeRaw lawful fuel (goesOn_of_isIdentifier identifier)) fun _ => .idle
  · exact .bind (.report _ (by simp)) fun _ => .pure fun _ _ => And.left

end Raw

theorem linked_openFile {source path : String} {after : Pairing}
    (enters : ∀ session session' stream, before session session' → realm.Opens path stream →
      after { session with files := { path, stream } :: session.files, depth := session.depth + 1 }
        { session' with files := { path, stream } :: session'.files, depth := session'.depth + 1 })
          :
    Linked realm before (openFile fuel source path) fun _ => after := by
  refine .bind (.gives (Scanner.steady_openSource path source false)) fun scanner => ?_
  refine .bind (.gives (TokenStream.steady_expand fuel _ none)) fun stream => .modify ?_
  rintro session session' ⟨⟨here, scanned⟩, made⟩
  exact enters session session' stream here ⟨source, scanner, fuel, scanned, made⟩

theorem linked_toBeEnded {ending : Ending} (left : ending ≠ .taken) :
    Linked realm (lane.within depth) (pure ending) (lane.Handled depth) :=
  .pure fun _ _ within => ⟨left, within⟩

section Define

theorem linked_settleVariadics (parameters : List Parameter) :
    Linked realm before (settleVariadics parameters) fun settled session session' =>
      before session session' ∧ settled.map (·.name) = parameters.map (·.name) := by
  induction parameters with
  | nil => exact .pure fun _ _ here => ⟨here, rfl⟩
  | cons parameter rest ih =>
    cases rest with
    | nil => exact .pure fun _ _ here => ⟨here, rfl⟩
    | cons next rest =>
      refine .optional (fun _ => .report _ (by simp)) (fun _ _ _ => id) ?_
      exact .bind ih fun _ => .pure fun _ _ here => ⟨here.1, congrArg (parameter.name :: ·) here.2⟩

theorem linked_build (name : Token) (parameters : Option (List Parameter)) (body : List Token)
    (place : Location) :
    Linked realm before (Engine.build name parameters body place : SessionM Macro)
      fun definition session session' => before session session' ∧
        realm.Gives (Engine.build name parameters body place) definition := by
  have other : ∀ notice ∈ Op.complaints, notice ≠ .tooManyErrors := by decide
  have reports : Steady ((Macro.build name parameters body place).2.forM fun complaint =>
      Engine.report complaint.1.location complaint.2) :=
    .forM_report (fun complaint => complaint.1.location) fun complaint member =>
      other _ (Macro.mem_complaints_build complaint member)
  have built : Steady (Engine.build name parameters body place) := by
    refine .bind reports fun _ => ?_
    split
    · exact .pure _
    · exact .throw _
  exact .gives built

theorem linked_edit {action : Engine Unit} (edit : MacroTable → MacroTable) (event : Event)
    (edits : ∀ context, action context = .ok ()
      { context with table := edit context.table, events := context.events.push event })
    (traced : ∀ table, ∀ entry ∈ (edit table).entries,
      entry ∈ table.entries ∨ .defining entry.definition = event)
    (keeps : ∀ session session', before session session' → ∀ table, realm.fits table →
      realm.fits (edit table)) : Linked realm before (action : SessionM Unit) := by
  have goes (context : Context) : ∃ next, action context = .ok () next ∧
      next.table = edit context.table ∧ context.Hears [] next := by
    refine ⟨_, edits context, rfl, .nothing rfl ⟨fun _ => Array.mem_push_of_mem _, ?_⟩⟩
    refine fun entry member => (traced _ entry member).imp_right fun same => ?_
    rw [same]
    exact Array.mem_push_self
  have growing : Growing action := .of_hears fun {context value next} ran => by
    obtain ⟨_, done, _, hears⟩ := goes context
    cases done.symm.trans ran
    exact ⟨[], hears⟩
  refine (Linked.lift growing fun _ _ here => ?_).post fun _ _ _ => And.left
  exact @Echoes.of_ok _ _ _ (fun _ => ()) edit [] goes (keeps _ _ here)

theorem linked_define {definition : Macro} (keeps : ∀ session session', before session session' →
      ∀ table, realm.fits table → realm.fits (table.define definition)) :
    Linked realm before (Engine.define definition : SessionM Unit) := by
  refine linked_edit (·.define definition) (.defining definition) (fun _ => rfl)
    (fun _ entry member => ?_) keeps
  rcases MacroTable.mem_of_mem_insert member with rfl | member
  · exact .inr rfl
  · exact .inl member

include lawful

theorem linked_undefine (name : String) :
    Linked realm before (Engine.undefine name : SessionM Unit) :=
  linked_edit (·.undefine name) (.undefining name) (fun _ => rfl)
    (fun _ _ member => .inl (List.mem_filter.mp member).1) fun _ _ _ _ =>
      lawful.builds.undefines name

theorem linked_takeParameter (known : List Parameter) :
    Linked realm (lane.within depth) (takeParameter fuel known) fun found session session' =>
      (∀ parameter ∈ found, realm.quiet = true → parameter.name ∉ known.map (·.name)) ∧
        lane.within depth session session' := by
  refine .bind (linked_rawHead lawful) fun token => ?_
  dsimp only
  split
  · exact .bind (.report _ (by simp)) fun _ => .pure fun _ _ here => ⟨by simp, here.1⟩
  refine .optional
    (fun identifier => linked_takeRaw lawful fuel (goesOn_of_isIdentifier identifier))
    (fun _ _ _ => And.left) ?_
  refine .bind (linked_rawHead lawful) fun next => ?_
  refine .optional (fun dots => linked_takeRaw lawful fuel (goesOn_of_isPunctuator dots))
    (fun _ _ _ => And.left) ?_
  generalize (if token.isIdentifier then token.lexeme else variadicName) = name
  split
  · refine .bind (.complain _ (by simp)) fun _ => .pure fun _ _ here => ⟨?_, here.1⟩
    rintro _ ⟨⟩ quiet
    exact absurd (here.2.symm.trans quiet) (by decide)
  next unknown =>
    refine .pure fun _ _ within => ⟨?_, within⟩
    rintro _ ⟨⟩ _
    simpa using unknown

theorem linked_takeParameters (bound : Nat) (known : List Parameter) :
    Linked realm (fun session session' => realm.Declares known ∧ lane.within depth session session')
      (takeParameters fuel bound known) fun found session session' =>
        (∀ declared ∈ found, realm.Declares declared) ∧ lane.within depth session session' := by
  induction bound generalizing known with
  | zero => exact .throw _
  | succ bound ih =>
    refine .bind ((linked_takeParameter lawful fuel known).frame _) fun found => ?_
    cases found with
    | none => exact .pure fun _ _ here => ⟨by simp, here.2.2⟩
    | some parameter =>
      have more (declares : realm.Declares known)
          (new : ∀ found ∈ some parameter, realm.quiet = true → found.name ∉ known.map (·.name)) :
          realm.Declares (known ++ [parameter]) := by
        intro quiet
        rw [List.map_append]
        simpa [List.nodup_append] using ⟨declares quiet, fun other member same =>
          new parameter rfl quiet (List.mem_map.mpr ⟨other, member, same⟩)⟩
      refine .since (fun _ _ here => ⟨more here.1 here.2.1, here.2.2⟩) ?_
      refine .bind ((linked_rawHead lawful).frame _) fun separator => ?_
      split
      next closing =>
        exact .bind ((linked_takeRaw lawful fuel (goesOn_of_isPunctuator closing)).frame _) fun _ =>
          .pure fun _ _ here => ⟨by simpa using here.1, here.2⟩
      split
      next comma =>
        exact .bind ((linked_takeRaw lawful fuel (goesOn_of_isPunctuator comma)).frame _) fun _ =>
          ih _
      · exact .bind (.report _ (by simp)) fun _ => .pure fun _ _ here => ⟨by simp, here.2.1⟩

theorem linked_parameterList :
    Linked realm (lane.within depth) (parameterList fuel) fun found session session' =>
      (∀ declared ∈ found, realm.Declares declared) ∧ lane.within depth session session' := by
  have nothing : realm.Declares [] := fun _ => List.nodup_nil
  refine .bind (linked_rawHead lawful) fun next => ?_
  split
  next closing =>
    exact .bind (linked_takeRaw lawful fuel (goesOn_of_isPunctuator closing)) fun _ =>
      .pure fun _ _ within => ⟨by simpa using nothing, within⟩
  refine .bind ((linked_takeParameters lawful fuel fuel []).imp (fun _ _ here => ⟨nothing, here.1⟩)
    fun _ _ _ => id) fun found => ?_
  cases found with
  | none => exact .pure fun _ _ here => ⟨by simp, here.2⟩
  | some parameters =>
    refine .bind (linked_settleVariadics parameters) fun settled => .pure ?_
    rintro _ _ ⟨⟨declares, within⟩, same⟩
    refine ⟨?_, within⟩
    rintro _ ⟨⟩ quiet
    rw [same]
    exact declares parameters rfl quiet

theorem linked_defineFrom (name : Token) (parameters : Option (List Parameter)) :
    Linked realm (fun session session' => (∀ declared ∈ parameters, realm.Declares declared) ∧
      lane.within depth session session') (defineFrom fuel name parameters) fun _ =>
        lane.within depth := by
  refine .bind ((linked_knownLine lawful fuel fuel).frame _) fun body => ?_
  have builds {next : Macro → SessionM Unit} (rest : ∀ definition, Linked realm
      (fun session session' => (∀ table, realm.fits table → realm.fits (table.define definition)) ∧
        lane.within depth session session') (next definition) fun _ => lane.within depth) :
      Linked realm (fun session session' => (∀ declared ∈ parameters, realm.Declares declared) ∧
        (∀ token ∈ body, lane.Known token) ∧ lane.Ends depth session session')
        (do next (← Engine.build name parameters body (← rawHead).location))
        fun _ => lane.within depth := by
    refine .bind (((linked_rawHead lawful).atEnd.frame _).frame _) fun finish => ?_
    refine .bind (linked_build name parameters body finish.location) fun definition => ?_
    refine (rest definition).imp ?_ fun _ _ _ => id
    rintro session session' ⟨⟨declares, known, within, rfl⟩, given⟩
    exact ⟨fun table fit => lawful.builds.defines fit declares known (lawful.token within) given,
      within⟩
  have defines {definition : Macro} : Linked realm (fun session session' =>
      (∀ table, realm.fits table → realm.fits (table.define definition)) ∧
        lane.within depth session session') (Engine.define definition : SessionM Unit)
      fun _ => lane.within depth :=
    (linked_define fun _ _ => And.left).imp (fun _ _ => id) fun _ _ _ => And.right
  refine .bind .table fun table => ?_
  split
  · exact builds fun _ => defines
  split
  · exact (Linked.report _ (by simp)).imp (fun _ _ here => here.2.2.1) fun _ _ _ => id
  refine builds fun definition => ?_
  split
  · refine .bind (.report _ (by simp)) fun _ => ?_
    split
    · exact .bind (.report _ (by simp)) fun _ => defines
    · exact defines
  · exact defines

variable (directive : Token)

theorem linked_handleDefine :
    Linked realm (lane.within depth) (handleDefine fuel directive) (lane.Handled depth) := by
  have defines (name : Token) (parameters : Option (List Parameter)) : Linked realm
      (fun session session' => (∀ declared ∈ parameters, realm.Declares declared) ∧
        lane.within depth session session')
      (do defineFrom fuel name parameters; return Ending.checked) (lane.Handled depth) :=
    .bind (linked_defineFrom lawful fuel name parameters) fun _ => linked_toBeEnded (by simp)
  refine .bind (linked_expectName lawful fuel directive) fun found => ?_
  cases found with
  | none => exact linked_toBeEnded (by simp)
  | some name =>
    refine .bind (linked_rawHead lawful) fun next => ?_
    split
    next opening =>
      simp only [Bool.and_eq_true] at opening
      refine .bind (linked_takeRaw lawful fuel (goesOn_of_isPunctuator opening.1)) fun _ => ?_
      refine .bind (linked_parameterList lawful fuel) fun found => ?_
      cases found with
      | none => exact (linked_toBeEnded (by simp)).imp (fun _ _ => And.right) fun _ _ _ => id
      | some parameters => exact defines name parameters
    · exact (defines name none).imp (fun _ _ here => ⟨by simp, here.1⟩) fun _ _ _ => id

theorem linked_handleUndefine :
    Linked realm (lane.within depth) (handleUndefine fuel directive) (lane.Handled depth) := by
  refine .bind (linked_expectName lawful fuel directive) fun found => ?_
  cases found with
  | none => exact linked_toBeEnded (by simp)
  | some name =>
    refine .bind .table fun table => ?_
    split
    · exact .bind (linked_undefine lawful _) fun _ => linked_toBeEnded (by simp)
    split
    · exact .bind (.report _ (by simp)) fun _ => linked_toBeEnded (by simp)
    · exact .bind (linked_undefine lawful _) fun _ => linked_toBeEnded (by simp)

end Define

section Branch

theorem linked_expandTokens (tokens : List Token) (finish : Location) :
    Linked realm before (expandTokens fuel tokens finish : SessionM (List Token)) :=
  .lift_steady (steady_expandTokens fuel tokens finish)

include lawful

variable (directive : Token)

theorem linked_evaluateLine :
    Linked realm (lane.within depth) (evaluateLine fuel directive) := by
  refine .bind (linked_restOfLine lawful fuel fuel) fun tokens => Linked.atEnd ?_
  refine .bind (linked_rawHead lawful) fun finish => Linked.here ?_
  refine .bind .table fun table => ?_
  split
  · exact .bind (.report _ (by simp)) fun _ => .idle
  refine .bind (linked_expandTokens fuel _ _) fun expanded => ?_
  split
  · exact .idle
  · exact .bind (.report _ (by simp)) fun _ => .idle
  · exact .throw _
  · exact .throw _

theorem linked_reframe {depth' : Nat} {change : List Conditional → List Conditional}
    (kept : ∀ frames frames', Framing lane.tails depth frames frames' →
      Framing lane.tails depth' (change frames) (change frames')) :
    Linked realm (lane.within depth)
      (modifyFile fun file => { file with conditionals := change file.conditionals })
      fun _ => lane.within depth' :=
  .modify fun _ _ within => lawful.reframe change within (kept _ _ (lawful.framed within))

theorem linked_openConditional (quiet enabled : Bool) :
    Linked realm (lane.within depth) (openConditional directive quiet enabled)
      fun _ => lane.within (depth + 1) :=
  linked_reframe lawful fun _ _ framed => framed.push _

theorem linked_setFrame (reaches : lane.Reaches depth) (frame : Conditional) :
    Linked realm (lane.within depth) (setFrame frame) :=
  linked_reframe lawful fun _ _ framed => framed.replace reaches frame

/-- A frame, or a report that there is none. -/
def frameOr (fuel : Nat) (directive : Token) : Option Conditional → SessionM (Option Conditional)
  | some frame => return some frame
  | none => do
    report directive.location (.withoutIf directive.lexeme)
    skipLine fuel
    return none

omit lawful in
theorem currentFrame_eq (session : Session) :
    currentFrame fuel directive session = frameOr fuel directive session.topFrames.head?
      session := by
  obtain ⟨options, includes, files⟩ := session
  cases files with
  | nil => rfl
  | cons file rest =>
    obtain ⟨path, stream, frames⟩ := file
    cases frames <;> rfl

theorem linked_currentFrame (reaches : lane.Reaches depth) :
    Linked realm (lane.within depth) (currentFrame fuel directive) fun found session session' =>
      (found = none → lane.tails = none) ∧ lane.within depth session session' := by
  refine .see (currentFrame_eq fuel directive)
    (fun _ _ within => (lawful.framed within).head?_eq reaches) fun first => ?_
  cases first with
  | some frame => exact .pure fun _ _ here => ⟨by rintro ⟨⟩, here.1⟩
  | none =>
    refine .since (fun _ _ here => ⟨(lawful.framed here.1).tails_eq_none reaches here.2, here.1⟩) ?_
    exact .bind (.report _ (by simp)) fun _ =>
      .bind ((linked_skipLine lawful fuel).frame _) fun _ =>
      .pure fun _ _ ends => ⟨fun _ => ends.1, ends.2.1⟩

theorem linked_handleIf (quiet : Bool) :
    Linked realm (lane.within depth) (handleIf fuel directive quiet)
      (lane.Handled (depth + 1)) := by
  unfold handleIf
  split
  · refine .bind (linked_skipLine lawful fuel) fun _ => Linked.atEnd ?_
    exact .bind (linked_openConditional lawful directive _ _) fun _ => linked_toBeEnded (by simp)
  · refine .bind (linked_evaluateLine lawful fuel directive) fun _ => ?_
    exact .bind (linked_openConditional lawful directive _ _) fun _ => linked_toBeEnded (by simp)

theorem linked_handleIfDefined (quiet expected : Bool) :
    Linked realm (lane.within depth) (handleIfDefined fuel directive quiet expected)
      (lane.Handled (depth + 1)) := by
  unfold handleIfDefined
  split
  · refine .bind (linked_skipLine lawful fuel) fun _ => Linked.atEnd ?_
    exact .bind (linked_openConditional lawful directive _ _) fun _ => linked_toBeEnded (by simp)
  refine .bind (linked_expectName lawful fuel directive) fun found => ?_
  cases found with
  | none =>
    exact .bind (linked_openConditional lawful directive _ _) fun _ => linked_toBeEnded (by simp)
  | some name =>
    refine .bind .table fun _ => ?_
    exact .bind (linked_openConditional lawful directive _ _) fun _ => linked_toBeEnded (by simp)

theorem linked_handleElif (reaches : lane.Reaches depth) :
    Linked realm (lane.within depth) (handleElif fuel directive) (lane.Handled depth) := by
  refine .bind ((linked_currentFrame lawful fuel directive reaches).post fun _ _ _ => And.right)
    fun found => ?_
  cases found with
  | none => exact linked_toBeEnded (by simp)
  | some frame =>
    refine .optional (fun _ => .report _ (by simp)) (fun _ _ _ => id) ?_
    split
    · refine .bind (linked_evaluateLine lawful fuel directive) fun _ => ?_
      exact .bind (linked_setFrame lawful reaches _) fun _ => linked_toBeEnded (by simp)
    · refine .bind (linked_setFrame lawful reaches _) fun _ => ?_
      exact .bind (linked_skipLine lawful fuel) fun _ => (linked_toBeEnded (by simp)).atEnd

theorem linked_handleElse (reaches : lane.Reaches depth) :
    Linked realm (lane.within depth) (handleElse fuel directive) (lane.Handled depth) := by
  refine .bind ((linked_currentFrame lawful fuel directive reaches).post fun _ _ _ => And.right)
    fun found => ?_
  cases found with
  | none => exact linked_toBeEnded (by simp)
  | some frame =>
    dsimp only
    split
    · refine .bind (.report _ (by simp)) fun _ => ?_
      exact .bind (linked_setFrame lawful reaches _) fun _ => linked_toBeEnded (by simp)
    · exact .bind (linked_setFrame lawful reaches _) fun _ => linked_toBeEnded (by simp)

theorem linked_handleEndif (reaches : lane.Reaches depth) :
    Linked realm (lane.within depth) (handleEndif fuel directive) (lane.Handled (depth - 1)) := by
  refine .bind (linked_currentFrame lawful fuel directive reaches) fun found => ?_
  cases found with
  | none =>
    -- Where no conditional is open, how many are does not count.
    refine .pure fun session session' here => ⟨by decide, ?_⟩
    obtain ⟨whole, within⟩ := here
    have framed := lawful.framed within
    rw [whole rfl] at framed
    have same : Framing lane.tails (depth - 1) (id session.topFrames) (id session'.topFrames) := by
      rw [whole rfl]
      exact framed
    have moved := lawful.reframe id within same
    rwa [reframe_id, reframe_id] at moved
  | some frame =>
    have drops := linked_reframe lawful fun _ _ framed => framed.tail reaches
    exact .bind (drops.pre fun _ _ => And.right) fun _ => linked_toBeEnded (by simp)

end Branch

section Line

variable (directive : Token)

theorem linked_reportExtra (tokens : List Token) :
    Linked realm before (reportExtra directive tokens) := by
  cases tokens with
  | nil => exact .idle
  | cons extra rest => exact .report _ (by simp)

include lawful

theorem linked_expandedLine :
    Linked realm (lane.within depth) (expandedLine fuel) fun _ => lane.Ends depth := by
  refine .bind (linked_restOfLine lawful fuel fuel) fun tokens => ?_
  cases tokens with
  | nil => exact .idle
  | cons first rest =>
    dsimp only
    split
    · refine .bind (.head fun _ _ here => lawful.head here.1) fun _ => ?_
      exact (linked_expandTokens fuel _ _).imp (fun _ _ => And.left) fun _ _ _ => id
    · exact .idle

theorem linked_renumberFrom (line : Nat) (operands : List Token) :
    Linked realm (lane.Ends depth) (renumberFrom directive line operands) (lane.Handled depth) := by
  have checked (file : Option String) : Linked realm (lane.Ends depth)
      (do renumber line file; return Ending.checked) (lane.Handled depth) :=
    .bind (.modify fun _ _ ends => lawful.renumber line file ends.1 ends.2) fun _ =>
      linked_toBeEnded (by simp)
  cases operands with
  | nil => exact checked none
  | cons name extra =>
    dsimp only [renumberFrom]
    split
    · exact .bind (linked_reportExtra directive extra) fun _ => checked _
    · exact .bind (.report _ (by simp)) fun _ => (linked_toBeEnded (by simp)).atEnd

theorem linked_handleLine :
    Linked realm (lane.within depth) (handleLine fuel directive) (lane.Handled depth) := by
  have complains (place : Location) (text : String) : Linked realm (lane.Ends depth)
      (do report place (.invalidLineNumber text); return Ending.unchecked) (lane.Handled depth) :=
    .bind (.report _ (by simp)) fun _ => (linked_toBeEnded (by simp)).atEnd
  refine .bind (linked_expandedLine lawful fuel) fun tokens => ?_
  cases tokens with
  | nil => exact complains _ _
  | cons number rest =>
    dsimp only
    split
    · split
      · exact .throw _
      · exact complains _ _
      · exact linked_renumberFrom lawful directive _ rest
    · exact complains _ _

theorem linked_handleUserNotice {notice : String → Notice}
    (other : ∀ text, notice text ≠ .tooManyErrors) :
    Linked realm (lane.within depth) (handleUserNotice fuel directive notice)
      (lane.Handled depth) :=
  .bind (linked_restOfLine lawful fuel fuel) fun _ => .bind (.report _ (other _)) fun _ =>
    (linked_toBeEnded (by simp)).atEnd

theorem linked_includeOperand :
    Linked realm (lane.within depth) (includeOperand fuel directive) := by
  refine .bind (linked_expandedLine lawful fuel) fun tokens => Linked.atEnd ?_
  cases tokens with
  | nil =>
    refine .bind (linked_rawHead lawful) fun _ => Linked.here ?_
    exact .bind (.report _ (by simp)) fun _ => .idle
  | cons first rest =>
    dsimp only
    split
    · exact .bind (linked_reportExtra directive rest) fun _ => .idle
    split
    · split
      · exact .bind (linked_reportExtra directive _) fun _ => .idle
      · exact .bind (.report _ (by simp)) fun _ => .idle
    · exact .bind (.report _ (by simp)) fun _ => .idle

end Line

include lawful in
theorem linked_handle_of_ne {name : Token} {directive : Directive} (other : directive ≠ .include)
    (other' : directive ≠ .pragma) (reaches : directive.reaches = true → lane.Reaches depth)
    (quiet : Bool) :
    Linked realm (lane.within depth) (handle fuel name quiet directive)
      (lane.Handled (directive.deepen depth)) := by
  cases directive with
  | «include» => exact absurd rfl other
  | pragma => exact absurd rfl other'
  | define => exact linked_handleDefine lawful fuel name
  | undefine => exact linked_handleUndefine lawful fuel name
  | ifTrue => exact linked_handleIf lawful fuel name quiet
  | ifDefined => exact linked_handleIfDefined lawful fuel name quiet true
  | ifNotDefined => exact linked_handleIfDefined lawful fuel name quiet false
  | elseIf => exact linked_handleElif lawful fuel name (reaches rfl)
  | otherwise => exact linked_handleElse lawful fuel name (reaches rfl)
  | endIf => exact linked_handleEndif lawful fuel name (reaches rfl)
  | userError | userWarning => exact linked_handleUserNotice lawful fuel name (by simp)
  | line => exact linked_handleLine lawful fuel name

/-- The session in which a file was included and opened. -/
def entered (inclusion : Inclusion) (path : String) (stream : TokenStream) (session : Session) :
    Session :=
  { session with
    inclusions := session.inclusions.push inclusion
    files := { path, stream } :: session.files
    depth := session.depth + 1 }

end Session

/-- What directives that look at files leave alike, and what is alike after a directive. -/
structure Lane.Open (lane : Lane) (realm : Realm) (after : (depth : Nat) → Pairing) : Prop
    extends lane.Lawful realm where
  closed : ∀ {depth session session'}, lane.Closed depth session session' →
    after depth session session'
  once : ∀ {depth session session'}, lane.within depth session session' →
    lane.within depth session.markOnce session'.markOnce
  seen : ∀ {depth session session'}, lane.Closed depth session session' →
    session'.includes = session.includes ∧ session'.includer = session.includer ∧
      session'.onceOnly = session.onceOnly ∧ session'.depth = session.depth ∧
      session'.options.maxIncludeDepth = session.options.maxIncludeDepth
  enter : ∀ {depth session session'} (inclusion : Inclusion) {path : String} {stream : TokenStream},
    realm.Opens path stream → lane.Closed depth session session' →
    after depth (session.entered inclusion path stream) (session'.entered inclusion path stream)

namespace Session

/-- Handles a directive line from its name on. -/
def handleFrom (fuel : Nat) (name : Token) : SessionM Unit := do
  if name.endsLine then return ()
  let quiet ← isSkipping
  if !name.isIdentifier then
    if !quiet then report name.location .expectedDirectiveName
    skipLine fuel
  else match Directive.ofName? name.lexeme with
    | none => do
      if !quiet then report name.location (.unknownDirective name.lexeme)
      skipLine fuel
    | some directive =>
      if quiet && !directive.ofConditional then skipLine fuel
      else do
        let _ ← takeRaw fuel
        let ending ← handle fuel name quiet directive
        endLine fuel name ending

/-- Handles a directive line from behind its `#` on. -/
def handleNamed (fuel : Nat) : SessionM Unit := do
  handleFrom fuel (← rawHead)

/-- What is done about a reference, once the includer is known and the session was looked at. -/
def openSeen (fuel : Nat) (directive : Token) (reference : Reference) (includer : String)
    (includes : IncludeSystem) (onceOnly : List String) (depth maxDepth : Nat) : SessionM Unit := do
  match includes.resolve reference (some includer) with
  | .error error => throw (.file error)
  | .ok none => report directive.location (.includeNotFound reference.render)
  | .ok (some path) =>
    if onceOnly.contains path then return ()
    if maxDepth < depth then
      report directive.location (.includeTooDeep (toString maxDepth))
      return ()
    match includes.read path with
    | .error (.undecodable path) => throw (.file (.undecodable path))
    | .error error =>
      report directive.location (.includeUnreadable reference.name error.message)
    | .ok source => do
      let inclusion : Inclusion :=
        { includer, line := directive.location.line, reference, path }
      modify fun session => { session with inclusions := session.inclusions.push inclusion }
      Engine.trace (.including path)
      openFile fuel source path

theorem openReference_eq (fuel : Nat) (directive : Token) (reference : Reference)
    (session : Session) :
    openReference fuel directive reference session =
      openSeen fuel directive reference session.includer session.includes session.onceOnly
        session.depth session.options.maxIncludeDepth session := rfl

variable {realm : Realm} {lane : Lane} {after : (depth : Nat) → Pairing}
  (opens : lane.Open realm after)
  {depth : Nat} (fuel : Nat) {name : Token}

include opens

theorem linked_openReference (directive : Token) (reference : Reference) :
    Linked realm (lane.Closed depth) (openReference fuel directive reference)
      fun _ => after depth := by
  have reports {notice : Notice} (other : notice ≠ .tooManyErrors) :
      Linked realm (lane.Closed depth) (report directive.location notice)
        fun _ => after depth :=
    (Linked.report _ other).post fun _ _ _ => opens.closed
  have enters (source path : String) (inclusion : Inclusion) :
      Linked realm (lane.Closed depth)
        (do
          modify fun session => { session with inclusions := session.inclusions.push inclusion }
          Engine.trace (.including path)
          openFile fuel source path : SessionM Unit)
        fun _ => after depth := by
    -- Nothing looks at the session between noting the inclusion and opening the file.
    let noted : Pairing := fun session session' => ∃ before before',
      lane.Closed depth before before' ∧
      session = { before with inclusions := before.inclusions.push inclusion } ∧
      session' = { before' with inclusions := before'.inclusions.push inclusion }
    have notes : Linked realm (lane.Closed depth)
        (modify fun session => { session with inclusions := session.inclusions.push inclusion })
        fun _ => noted := .modify fun session session' closed =>
          ⟨session, session', closed, rfl, rfl⟩
    refine .bind notes fun _ => .bind (.lift_steady (.trace _)) fun _ => linked_openFile fuel ?_
    rintro _ _ _ ⟨before, before', closed, rfl, rfl⟩ made
    exact opens.enter inclusion made closed
  have looks {includer : String} {includes : IncludeSystem} {onceOnly : List String}
      {opened maxDepth : Nat} : Linked realm (lane.Closed depth)
        (openSeen fuel directive reference includer includes onceOnly opened maxDepth)
        fun _ => after depth := by
    unfold openSeen
    split
    · exact .throw _
    · exact reports (by simp)
    split
    · exact .pure fun _ _ => opens.closed
    split
    · exact .bind (.report _ (by simp)) fun _ => .pure fun _ _ => opens.closed
    split
    · exact .throw _
    · exact reports (by simp)
    · exact enters _ _ _
  let opensWith (seen : String × IncludeSystem × List String × Nat × Nat) : SessionM Unit :=
    openSeen fuel directive reference seen.1 seen.2.1 seen.2.2.1 seen.2.2.2.1 seen.2.2.2.2
  have sees (session : Session) : openReference fuel directive reference session =
      opensWith (session.includer, session.includes, session.onceOnly, session.depth,
        session.options.maxIncludeDepth) session := openReference_eq ..
  refine .see sees (fun _ _ closed => ?_) fun _ => looks.pre fun _ _ => And.left
  obtain ⟨includes, includer, onceOnly, opened, maxDepth⟩ := opens.seen closed
  rw [includes, includer, onceOnly, opened, maxDepth]

/-- Sessions after a directive: its line is still to be ended, or that was done. -/
def Treated (lane : Lane) (after : (depth : Nat) → Pairing) (depth : Nat) (ending : Ending) :
    Pairing :=
  fun session session' => lane.Handled depth ending session session' ∨
    ending = .taken ∧ after depth session session'

omit opens in
theorem Linked.treated {before : Pairing} {action : SessionM Ending}
    (linked : Linked realm before action (lane.Handled depth)) :
    Linked realm before action (Treated lane after depth) :=
  linked.post fun _ _ _ => .inl

theorem linked_handleInclude (directive : Token) :
    Linked realm (lane.within depth) (handleInclude fuel directive)
      (Treated lane after depth) := by
  refine .bind (linked_includeOperand opens.toLawful fuel directive) fun found => ?_
  cases found with
  | none => exact (linked_toBeEnded (by simp)).treated
  | some reference =>
    refine .bind (linked_endLine opens.toLawful fuel directive (by decide)) fun _ => ?_
    refine .bind (linked_openReference opens fuel directive reference) fun _ => ?_
    exact .pure fun _ _ entered => .inr ⟨rfl, entered⟩

theorem linked_handlePragma :
    Linked realm (lane.within depth) (handlePragma fuel) (lane.Handled depth) := by
  refine .bind (linked_rawHead opens.toLawful) fun next => ?_
  split
  next once =>
    simp only [Bool.and_eq_true] at once
    refine .bind (linked_takeRaw opens.toLawful fuel (goesOn_of_isIdentifier once.1)) fun _ => ?_
    exact .bind (.modify fun _ _ => opens.once) fun _ => linked_toBeEnded (by simp)
  · exact .bind (linked_skipLine opens.toLawful fuel).here fun _ =>
      (linked_toBeEnded (by simp)).atEnd

theorem linked_handle (directive : Directive)
    (reaches : directive.reaches = true → lane.Reaches depth) (quiet : Bool) :
    Linked realm (lane.within depth) (handle fuel name quiet directive)
      (Treated lane after (directive.deepen depth)) := by
  by_cases includes : directive = .include
  · subst includes
    exact linked_handleInclude opens fuel name
  by_cases pragma : directive = .pragma
  · subst pragma
    exact (linked_handlePragma opens fuel).treated
  · exact (linked_handle_of_ne opens.toLawful fuel includes pragma reaches quiet).treated

theorem linked_endTreated (ending : Ending) :
    Linked realm (Treated lane after depth ending) (endLine fuel name ending)
      fun _ => after depth := by
  have ends (left : ending ≠ .taken) : Linked realm (Treated lane after depth ending)
      (endLine fuel name ending) fun _ => after depth := by
    refine (linked_endLine opens.toLawful fuel name left).imp ?_ fun _ _ _ => opens.closed
    rintro session session' (⟨_, within⟩ | ⟨taken, _⟩)
    · exact within
    · exact absurd taken left
  cases ending with
  | taken =>
    refine .pure ?_
    rintro session session' (⟨left, _⟩ | ⟨_, done⟩)
    · exact absurd rfl left
    · exact done
  | checked | unchecked => exact ends (by decide)

theorem linked_handleFrom (reaches : ∀ directive ∈ name.directive?, directive.reaches = true →
      lane.Reaches depth) :
    Linked realm (lane.At depth name) (handleFrom fuel name)
      fun _ => after (deepenBy name.directive? depth) := by
  have lawful := opens.toLawful
  have skips : Linked realm (lane.At depth name) (skipLine fuel) fun _ => after depth :=
    (linked_skipLine lawful fuel).here.post fun _ _ _ ends => opens.closed (.inl ends)
  have complains (quiet : Bool) {notice : Notice} (other : notice ≠ .tooManyErrors) :
      Linked realm (lane.At depth name)
        (do
          if !quiet then report name.location notice
          skipLine fuel) fun _ => after depth :=
    .optional (fun _ => .report _ other) (fun _ _ _ => id) skips
  unfold handleFrom
  by_cases ends : name.endsLine = true
  · have notIdentifier : name.isIdentifier = false := by
      cases named : name.isIdentifier with
      | false => rfl
      | true => rw [goesOn_of_isIdentifier named] at ends; cases ends
    rw [if_pos ends, Token.directive?, notIdentifier]
    exact .pure fun _ _ here => opens.closed (.inl ⟨here.1, here.2 ▸ ends⟩)
  rw [if_neg ends]
  refine .bind (linked_isSkipping lawful fun _ _ => And.left) fun quiet => ?_
  unfold Token.directive? at reaches ⊢
  by_cases identifier : name.isIdentifier = true
  · rw [if_pos identifier] at reaches ⊢
    rw [if_neg (by simp [identifier])]
    cases named : Directive.ofName? name.lexeme with
    | none => exact complains quiet (by simp)
    | some directive =>
      rw [named] at reaches
      by_cases passed : (quiet && !directive.ofConditional) = true
      · have other : directive.ofConditional = false := by simp_all
        simp only [deepenBy, Option.map_some, Option.getD_some,
          Directive.deepen_of_not_ofConditional other]
        rw [if_pos passed]
        exact skips
      · simp only
        rw [if_neg passed]
        refine .bind (linked_takeRaw lawful fuel (by simpa using ends)) fun _ => ?_
        exact .bind (linked_handle opens fuel directive (reaches directive rfl) quiet) fun ending =>
          linked_endTreated opens fuel ending
  · rw [if_neg identifier, if_pos (by simpa using identifier)]
    exact complains quiet (by simp)

/-- **A directive line does the same in both lanes**, from its name on. -/
theorem linked_handleNamed (reaches : ∀ directive ∈ name.directive?, directive.reaches = true →
      lane.Reaches depth) :
    Linked realm (lane.At depth name) (handleNamed fuel)
      fun _ => after (deepenBy name.directive? depth) := by
  refine .bind (.head fun _ _ here => opens.head here.1) fun shown => ?_
  refine ⟨fun quiet => ?_, fun here => ?_⟩
  · exact (linked_handleFrom opens fuel fun _ _ _ => .inl (opens.whole quiet) :
      Linked realm (lane.At depth shown) _ _).grows quiet
  · obtain ⟨here, rfl⟩ := here
    obtain rfl := here.2
    exact (linked_handleFrom opens fuel reaches).echoes here

end Session

end Preproc
