import Preproc.Proofs.Session.Lane

/-! # Twin sessions

Twin sessions read the same files, above files that may differ. Their options may differ as long as
that is not looked at between two checks of the limit on errors. So a step does the same in both,
until the files that they share are left.

Main statements: `Session.linked_proceed` and `Session.linked_push`.
-/

namespace Preproc

open Engine (Echoes)
open Regime (upcoming)
open Session (Pairing Linked)

/-- In what twin sessions differ, what is kept of the first of them, and what is known of its tokens
and of those that it gives. -/
structure Twins where
  retune : Options → Options
  below : List InputFile
  below' : List InputFile
  kept : Session → Prop
  token : Token → Prop := fun _ => True
  emits : Token → Prop := fun _ => True

/-- A stream that comes after another one in the same file. -/
inductive Realm.Follows (realm : Realm) (stream : TokenStream) : TokenStream → Prop
  | same : Follows realm stream stream
  | renumbered (line : Nat) (file : Option String) :
    Follows realm stream (stream.renumber line file)
  | moved {next : TokenStream} (fuel : Nat) (kind : TokenStream.Move)
      (gives : realm.Gives (stream.move fuel kind) next) : Follows realm stream next

namespace Twins

/-- Sessions that read the same files above those below. -/
def Over (twins : Twins) (above : List InputFile) : Pairing := fun session session' =>
  twins.kept session ∧ session.files = above ++ twins.below ∧
    session' = { session with
      options := twins.retune session.options
      files := above ++ twins.below' }

/-- Sessions that may have left all files that they share. -/
def Based (twins : Twins) : Pairing := fun session session' =>
  ∃ above, twins.Over above session session'

/-- Sessions that read the same. -/
def Alike (twins : Twins) : Pairing := fun session session' =>
  ∃ above, (above = [] → twins.below = [] ∧ twins.below' = []) ∧ twins.Over above session session'

/-- The lane of twins. How many conditionals are open does not count. -/
def lane (twins : Twins) : Lane where
  within _ := twins.Alike
  behind _ := twins.Alike
  tails := none
  token := twins.token

/-- What is kept when the file being read goes on. -/
structure Lawful (twins : Twins) (realm : Realm) : Prop where
  retop : ∀ {session : Session} {change : InputFile → InputFile},
    (∀ file, (change file).path = file.path) →
    (∀ file ∈ session.files.head?, realm.Follows file.stream (change file).stream) →
    twins.kept session → twins.kept (session.retop change)
  token : ∀ {session}, twins.kept session → twins.token (upcoming session) := by intros; trivial
  emitted : ∀ {session}, twins.kept session → (upcoming session).endsLine = false →
    (upcoming session).kind ≠ .directive → twins.emits (upcoming session) := by intros; trivial
  builds : realm.Builds twins.token := by exact Realm.builds_any

/-- What is kept when files are opened and left, and the options that count are the same. -/
structure Free (twins : Twins) (realm : Realm) : Prop extends twins.Lawful realm where
  noted : ∀ {session after : Session}, twins.kept session → after.files = session.files →
    after.finish = session.finish → after.options = session.options →
    after.stopped = session.stopped → after.peeked = session.peeked → twins.kept after
  opened : ∀ {session path stream}, twins.kept session → realm.Opens path stream →
    twins.kept { session with
      files := { path, stream } :: session.files
      depth := session.depth + 1 }
  left : ∀ {session file rest}, twins.kept session → session.files = file :: rest →
    file.stream.head.isEof = true →
    twins.kept { session with
      files := rest
      depth := session.depth - 1
      finish := if rest.isEmpty then file.stream.head else session.finish }
  ended : ∀ {session}, twins.kept session → session.files = [] → twins.emits session.finish := by
    intros; trivial
  depth : ∀ options, (twins.retune options).maxIncludeDepth = options.maxIncludeDepth
  commandLine : ∀ options, (twins.retune options).commandLine = options.commandLine

variable {twins : Twins} {session session' : Session}

theorem Alike.based (alike : twins.Alike session session') : twins.Based session session' := by
  obtain ⟨above, _, reads⟩ := alike
  exact ⟨above, reads⟩

theorem Based.alike (based : twins.Based session session') (empty : twins.below = [])
    (empty' : twins.below' = []) : twins.Alike session session' := by
  obtain ⟨above, reads⟩ := based
  exact ⟨above, fun _ => ⟨empty, empty'⟩, reads⟩

/-- Sessions that differ in the files below. -/
def overFiles (below below' : List InputFile) : Twins where
  retune := id
  below
  below'
  kept _ := True

/-- Twins of which nothing is kept that depends on files. -/
theorem Free.of_options
    (kept : ∀ {session after : Session}, twins.kept session → after.options = session.options →
      after.stopped = session.stopped → after.peeked = session.peeked → twins.kept after)
    (depth : ∀ options, (twins.retune options).maxIncludeDepth = options.maxIncludeDepth)
    (commandLine : ∀ options, (twins.retune options).commandLine = options.commandLine)
    (emits : ∀ token, twins.token token ∧ twins.emits token) : twins.Free .any where
  retop := by
    rintro ⟨options, includes, files⟩ change _ _ keeps
    cases files <;> exact kept keeps rfl rfl rfl
  token _ := (emits _).1
  emitted _ _ _ := (emits _).2
  noted keeps _ _ := kept keeps
  opened keeps _ := kept keeps rfl rfl rfl
  left keeps _ _ := kept keeps rfl rfl rfl
  ended _ _ := (emits _).2
  depth := depth
  commandLine := commandLine

theorem free_overFiles (below below' : List InputFile) : (overFiles below below').Free .any :=
  .of_options (fun _ _ _ _ => trivial) (fun _ => rfl) (fun _ => rfl) fun _ => ⟨trivial, trivial⟩

variable (alike : twins.Alike session session')

include alike

theorem Alike.cases :
    session.files = [] ∧ session'.files = [] ∨ ∃ file rest rest', session.files = file :: rest ∧
      session'.files = file :: rest' := by
  obtain ⟨above, shared, _, files, rfl⟩ := alike
  cases above with
  | nil =>
    obtain ⟨empty, empty'⟩ := shared rfl
    exact .inl ⟨files.trans empty, empty'⟩
  | cons file above => exact .inr ⟨file, _, _, files, rfl⟩

theorem Alike.upcoming_eq : upcoming session' = upcoming session := by
  have finish : session'.finish = session.finish := by
    obtain ⟨_, _, _, _, rfl⟩ := alike
    rfl
  unfold upcoming
  rcases alike.cases with ⟨files, files'⟩ | ⟨file, rest, rest', files, files'⟩
  · rw [files, files']
    exact finish
  · rw [files, files']

theorem Alike.head?_eq : session'.files.head? = session.files.head? := by
  rcases alike.cases with ⟨files, files'⟩ | ⟨file, rest, rest', files, files'⟩ <;>
    simp [files, files']

theorem Alike.topFrames_eq : session'.topFrames = session.topFrames := by
  unfold Session.topFrames
  rcases alike.cases with ⟨files, files'⟩ | ⟨file, rest, rest', files, files'⟩ <;>
    rw [files, files']

theorem Alike.retop {realm : Realm} (lawful : twins.Lawful realm)
    {change : InputFile → InputFile} (same : ∀ file, (change file).path = file.path)
    (follows : ∀ file ∈ session.files.head?, realm.Follows file.stream (change file).stream) :
    twins.Alike (session.retop change) (session'.retop change) := by
  obtain ⟨above, shared, kept, files, rfl⟩ := alike
  have kept := lawful.retop same follows kept
  obtain ⟨options, includes, _⟩ := session
  subst files
  cases above with
  | nil =>
    obtain ⟨empty, empty'⟩ := shared rfl
    simp only [Session.retop, List.nil_append, empty, empty'] at kept ⊢
    exact ⟨[], shared, kept, by rw [empty]; rfl, by rw [empty']; rfl⟩
  | cons file above => exact ⟨change file :: above, by rintro ⟨⟩, kept, rfl, rfl⟩

end Twins

namespace Session

/-- Moves in a file, and has the session go on there. -/
def moveIn (fuel : Nat) (kind : TokenStream.Move) : Option InputFile → SessionM Unit
  | none => return ()
  | some file => do
    let stream ← file.stream.move fuel kind
    modifyFile fun file => { file with stream }

variable {twins : Twins} {realm : Realm} (fuel : Nat)

theorem moveFile_eq (kind : TokenStream.Move) (session : Session) :
    moveFile fuel kind session = moveIn fuel kind session.files.head? session := by
  obtain ⟨options, includes, files⟩ := session
  cases files <;> rfl

section Lawful

variable (lawful : twins.Lawful realm)
include lawful

theorem linked_moveFile (kind : TokenStream.Move) :
    Linked realm twins.Alike (moveFile fuel kind) := by
  refine .see (moveFile_eq fuel kind) (fun _ _ => Twins.Alike.head?_eq) fun first => ?_
  cases first with
  | none => exact .pure fun _ _ => And.left
  | some file =>
    refine .bind (.gives (TokenStream.steady_move fuel kind file.stream)) fun stream => .modify ?_
    rintro session session' ⟨⟨alike, first⟩, moved⟩
    refine alike.retop lawful (fun _ => rfl) fun other here => ?_
    obtain rfl := Option.some.inj (first.symm.trans here)
    exact .moved fuel kind moved

theorem linked_take : Linked realm twins.Alike (takeRaw fuel) :=
  .take (fun _ _ => Twins.Alike.upcoming_eq) fun _ =>
    (linked_moveFile fuel lawful .advance).pre fun _ _ => And.left

theorem lawful_lane : twins.lane.Lawful realm where
  head := Twins.Alike.upcoming_eq
  token alike := by
    obtain ⟨_, _, kept, _⟩ := alike
    exact lawful.token kept
  advance _ fuel := (linked_moveFile fuel lawful .advance).pre fun _ _ => And.left
  turn _ fuel := (linked_moveFile fuel lawful .advance).pre fun _ _ => And.left
  framed := Twins.Alike.topFrames_eq
  shown := by rintro _ _ ⟨⟩
  reframe _ alike _ := alike.retop lawful (fun _ => rfl) fun _ _ => .same
  renumber line file alike _ := alike.retop lawful (fun _ => rfl) fun _ _ => .renumbered line file
  whole _ := rfl
  builds := lawful.builds

theorem linked_emit : Linked realm twins.Alike (emit fuel) fun found session session' =>
      (∀ token ∈ found, twins.emits token) ∧ twins.Alike session session' := by
  refine .bind (.head fun _ _ => Twins.Alike.upcoming_eq) fun token => ?_
  split
  · exact .pure fun _ _ here => ⟨by simp, here.1⟩
  next plain =>
    simp only [Bool.or_eq_true, beq_iff_eq, not_or, Bool.not_eq_true] at plain
    refine .bind (.take (fun _ _ here => here.1.upcoming_eq) fun taken =>
      ((linked_moveFile fuel lawful .advance).frame (twins.emits taken)).pre ?_) fun taken =>
        .pure fun _ _ here => ⟨by simpa using here.1, here.2⟩
    rintro session session' ⟨⟨alike, rfl⟩, rfl⟩
    obtain ⟨_, _, kept, _⟩ := id alike
    exact ⟨lawful.emitted kept plain.1 plain.2, alike⟩

end Lawful

variable (free : twins.Free realm)
include free

theorem linked_openSource (source path : String) :
    Linked realm twins.Based (openFile fuel source path) fun _ => twins.Alike := by
  refine linked_openFile fuel ?_
  rintro session _ stream ⟨above, kept, files, rfl⟩ made
  exact ⟨{ path, stream } :: above, by rintro ⟨⟩, free.opened kept made, by simp [files], rfl⟩

omit free in
theorem alike_of_closed {depth : Nat} {session session' : Session}
    (closed : twins.lane.Closed depth session session') : twins.Alike session session' := by
  rcases closed with ⟨alike, _⟩ | alike
  · exact alike
  · exact alike

theorem open_lane : twins.lane.Open realm fun _ => twins.Alike where
  toLawful := lawful_lane free.toLawful
  closed := alike_of_closed
  once := by
    rintro _ ⟨options, includes, _⟩ _ ⟨above, shared, kept, files, rfl⟩
    subst files
    cases above with
    | nil =>
      obtain ⟨empty, empty'⟩ := shared rfl
      refine ⟨[], shared, free.noted kept ?_ ?_ ?_ ?_ ?_, ?_, ?_⟩ <;>
        simp only [markOnce, List.nil_append, empty, empty']
    | cons file above =>
      exact ⟨file :: above, shared, free.noted kept rfl rfl rfl rfl rfl, rfl, rfl⟩
  seen := by
    intro depth session session' closed
    have alike := alike_of_closed closed
    have includer : session'.includer = session.includer := by
      unfold Session.includer
      rcases alike.cases with ⟨files, files'⟩ | ⟨file, rest, rest', files, files'⟩ <;>
        rw [files, files']
    obtain ⟨above, _, _, _, rfl⟩ := alike
    exact ⟨rfl, includer, rfl, rfl, free.depth _⟩
  enter := by
    intro depth session session' inclusion path stream made closed
    obtain ⟨above, _, kept, files, rfl⟩ := alike_of_closed closed
    have noted : twins.kept { session with inclusions := session.inclusions.push inclusion } :=
      free.noted kept rfl rfl rfl rfl rfl
    exact ⟨{ path, stream } :: above, by rintro ⟨⟩, free.opened noted made,
      by simp [entered, files], rfl⟩

theorem linked_handleDirective : Linked realm twins.Alike (handleDirective fuel) := by
  refine .bind (linked_take fuel free.toLawful) fun _ => ?_
  refine .bind (.head fun _ _ => Twins.Alike.upcoming_eq) fun name => ?_
  exact (linked_handleFrom (open_lane free) fuel fun _ _ _ => .inl rfl :
    Linked realm (twins.lane.At 0 name) _ _)

omit free in
theorem linked_reportOpen {before : Pairing} (finish : Token) (frames : List Conditional) :
    Linked realm before (reportOpen finish frames) := by
  induction frames with
  | nil => exact .idle
  | cons frame outer ih =>
    exact .bind (.report _ (by simp)) fun _ => .bind (.report _ (by simp)) fun _ => ih

variable (even : twins.below = [] ↔ twins.below' = [])
include even

theorem linked_leaveFile {file : InputFile} (ended : file.stream.head.isEof = true) :
    Linked realm (fun session session' => twins.Alike session session' ∧
      session.files.head? = some file) leaveFile fun _ => twins.Based := by
  have reports (session session' : Session) (file : InputFile) :
      Linked realm (fun session₁ session₂ => session₁ = session ∧ session₂ = session')
        (reportOpen file.stream.head file.conditionals) := linked_reportOpen _ _
  refine ⟨fun quiet session => ?_, ?_⟩
  · obtain ⟨options, includes, files⟩ := session
    cases files with
    | nil => exact .pure _
    | cons file rest =>
      exact ((reports default default file).grows quiet _).bind fun _ => .pure _
  rintro session session' ⟨alike, first⟩
  rcases alike.cases with ⟨files, files'⟩ | ⟨top, rest, rest', files, files'⟩
  · rw [files] at first
    cases first
  rw [files] at first
  cases first
  rw [leaveFile_of_files files, leaveFile_of_files files']
  refine Echoes.bind ((reports session session' file).echoes ⟨rfl, rfl⟩) ?_ ?_
  · rintro ⟨⟨⟩, middle⟩ ⟨⟨⟩, middle'⟩ ⟨_, here, here'⟩
    subst here here'
    obtain ⟨above, shared, kept, whole, rfl⟩ := alike
    cases above with
    | nil =>
      rw [(shared rfl).1] at whole
      rw [files] at whole
      cases whole
    | cons top above =>
      obtain ⟨rfl, rfl⟩ := List.cons.inj (files.symm.trans whole)
      obtain rfl : above ++ twins.below' = rest' := (List.cons.inj files').2
      have empty : (above ++ twins.below').isEmpty = (above ++ twins.below).isEmpty := by
        cases above with
        | nil =>
          rw [Bool.eq_iff_iff, List.isEmpty_iff, List.isEmpty_iff]
          exact even.symm
        | cons => rfl
      refine .pure ⟨rfl, above, free.left kept files ended, rfl, ?_⟩
      simp only [empty]
      rfl
  · rintro _ _ _ _ ⟨⟩ counts
    exact counts

omit free even in
/-- A step at the file that is read. -/
def proceedIn (fuel : Nat) : Option InputFile → SessionM (Option Token)
  | none => return some (← get).finish
  | some file => stepIn fuel file

omit free even in
theorem proceed_eq (session : Session) :
    proceed fuel session = proceedIn fuel session.files.head? session := by
  obtain ⟨options, includes, files⟩ := session
  cases files <;> rfl

/-- **A step** does the same in twins once the limit on errors was checked. -/
theorem linked_proceed : Linked realm twins.Alike (proceed fuel) fun found session session' =>
      (∀ token ∈ found, twins.emits token) ∧ twins.Based session session' := by
  have silent {session session' : Session} (based : twins.Based session session') :
      (∀ token ∈ (none : Option Token), twins.emits token) ∧ twins.Based session session' :=
    ⟨by simp, based⟩
  refine .see (proceed_eq fuel) (fun _ _ => Twins.Alike.head?_eq) fun first => ?_
  cases first with
  | none =>
    refine (Linked.look (fun _ => rfl) ?_).post ?_
    · rintro session _ ⟨⟨_, _, _, _, rfl⟩, _⟩
      rfl
    · rintro _ session _ ⟨⟨alike, closed⟩, rfl⟩
      obtain ⟨_, _, kept, _⟩ := id alike
      exact ⟨by simpa using free.ended kept (List.head?_eq_none_iff.mp closed), alike.based⟩
  | some file =>
    have moves (kind : TokenStream.Move) : Linked realm (fun session session' =>
        twins.Alike session session' ∧ session.files.head? = some file) (moveFile fuel kind)
        fun _ => twins.Alike := (linked_moveFile fuel free.toLawful kind).pre fun _ _ => And.left
    dsimp only [proceedIn, stepIn]
    split
    next ended =>
      exact .bind (linked_leaveFile free even ended) fun _ => .pure fun _ _ => silent
    split
    · exact .bind ((linked_handleDirective fuel free).pre fun _ _ => And.left) fun _ =>
        .pure fun _ _ alike => silent alike.based
    split
    · exact .bind (moves _) fun _ => .pure fun _ _ alike => silent alike.based
    · exact .bind (moves _) fun _ => (linked_emit fuel free.toLawful).post fun _ _ _ here =>
        ⟨here.1, here.2.based⟩

omit even in
theorem linked_openCommandLine (started : Bool) (commandLine : String) :
    Linked realm twins.Based (openCommandLine fuel started commandLine) := by
  have notes : Linked realm twins.Based
      (modify fun session => { session with started := true }) := by
    refine .modify ?_
    rintro session _ ⟨above, kept, files, rfl⟩
    exact ⟨above, free.noted kept rfl rfl rfl rfl rfl, files, rfl⟩
  unfold openCommandLine
  split
  · refine .bind notes fun _ => ?_
    split
    · exact (linked_openSource fuel free _ _).post fun _ _ _ => Twins.Alike.based
    · exact .idle
  · exact .idle

omit even in
/-- Opening the first source, where no files are below. -/
theorem linked_push (source path : String) :
    Linked realm twins.Based (push fuel source path) := by
  let goesOn (seen : Bool × String) : SessionM Unit := openCommandLine fuel seen.1 seen.2
  have sees (session : Session) : (do
      let session ← get
      if !session.started then
        modify fun session => { session with started := true }
        let commandLine := session.options.commandLine
        if !commandLine.isEmpty then openFile fuel commandLine commandLineFile :
          SessionM Unit) session =
      goesOn (session.started, session.options.commandLine) session := rfl
  refine .bind (linked_openSource fuel free source path) fun _ => .see sees ?_ fun seen => ?_
  · rintro session _ ⟨_, _, _, _, rfl⟩
    rw [free.commandLine]
  · exact (linked_openCommandLine fuel free _ _).pre fun _ _ here => here.1.based

end Session

end Preproc
