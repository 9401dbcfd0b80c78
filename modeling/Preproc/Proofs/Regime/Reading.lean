import Preproc.Proofs.Session.Blind

/-! # Reading a session keeps regimes

What a regime keeps of a session is that the stream of every open file is a kept expansion, and that
the tokens which the session holds are kept. A session that is kept is its own twin, so every step
keeps a regime, and so does reading. `Guards` is the judgement about the actions of a session that
succeed. So whatever a session gives is a kept token, and one that neither ends a line nor opens a
directive, unless it is the end (`Preproc.Regime.Governs.readAll`).
-/

namespace Preproc.Regime

open Session (Blind Linked)

/-- The runs that count for a regime. -/
def realm (regime : Regime) : Realm where
  fits table := ∀ entry ∈ table.entries, regime.entry entry
  quiet := regime.silent

/-- The laws of a regime that holds in sessions. -/
structure Governs (regime : Regime) : Prop extends regime.Lawful where
  rooted : regime.Rooted none
  initial : ∀ entry ∈ MacroTable.initial.entries, regime.entry entry
  opened : ∀ file source strict,
    regime.Keeps True (Scanner.openSource file source strict) regime.scanner
  renumbered : ∀ {scanner} (line : Nat) file, regime.scanner scanner →
    regime.scanner (scanner.renumber line file)
  built : ∀ {name parameters body place definition} serial,
    (∀ declared ∈ parameters, regime.realm.Declares declared) →
    (∀ token ∈ body, regime.token token ∧ token.endsLine = false) → regime.place place →
    (Macro.build name parameters body place).1 = .ok definition →
    (regime.silent = true → (Macro.build name parameters body place).2 = []) →
    regime.entry ⟨serial, definition⟩

/-- A token that a session may give. -/
def Emits (regime : Regime) (token : Token) : Prop :=
  regime.token token ∧ (token.isEof = true ∨ token.endsLine = false ∧ token.kind ≠ .directive)

structure Guarded (regime : Regime) (session : Session) : Prop where
  files : ∀ file ∈ session.files, regime.Expanding file.stream
  finish : regime.token session.finish
  ended : session.finish.isEof = true
  peeked : ∀ token ∈ session.peeked, regime.Emits token

/-- A session beside itself, as long as a regime is kept. -/
def guarding (regime : Regime) : Twins where
  retune := id
  below := []
  below' := []
  kept := regime.Guarded
  token := regime.token
  emits := regime.Emits

variable {regime : Regime} {given : Prop} {α β : Type} {session : Session}

theorem Keeps.of_gives {action : Engine α} {gives : α → Prop} {value : α}
    (kept : regime.Keeps given action gives) (found : regime.realm.Gives action value)
    (holds : given) : gives value := by
  obtain ⟨context, next, table, ran, live⟩ := found
  have here := kept context
  rw [ran] at here
  exact ((here live).2 table holds).2

section Streams

theorem Lawful.move_expanding (lawful : regime.Lawful) (fuel : Nat) (kind : TokenStream.Move)
    (stream : TokenStream) :
    regime.Keeps (regime.Expanding stream) (TokenStream.move fuel kind stream)
      regime.Expanding := by
  cases stream with
  | queue | scanner | playback =>
    exact (lawful.moves_move fuel kind _).imp (·.stream lawful) fun _ ⟨_, same, _⟩ => nomatch same
  | expansion nested =>
    have kept : regime.Expanding (.expansion nested) → regime.Expands nested :=
      fun expanding => lawful.stream_expansion.mp (expanding.stream lawful)
    cases fuel with
    | zero => exact .throw fun _ => lawful.ordinary (by simp) (by simp)
    | succ fuel =>
      have moves := lawful.moves_move fuel
      cases kind with
      | settle =>
        exact .bind (lawful.settle moves fuel nested) kept fun settled =>
          .pure fun ⟨_, expands⟩ => ⟨settled, rfl, expands⟩
      | advance =>
        exact .bind (lawful.expansion_advance moves nested) kept fun advanced =>
          .pure fun ⟨_, expands⟩ => ⟨advanced, rfl, expands⟩

theorem Governs.streams_renumberBottom (governs : regime.Governs) (line : Nat)
    (file : Option String) {streams : List TokenStream} (kept : regime.Streams streams) :
    regime.Streams (TokenStream.renumberBottom line file streams) := by
  fun_induction TokenStream.renumberBottom line file streams with
  | case1 => exact kept
  | case2 scanner =>
    cases kept (.scanner scanner) (List.mem_cons_self ..) with
    | scanner kept =>
      exact List.forall_mem_singleton.mpr (.scanner (governs.renumbered line file kept))
  | case3 stream below _ ih =>
    obtain ⟨first, others⟩ := streams_cons.mp kept
    exact streams_cons.mpr ⟨first, ih others⟩

theorem Governs.expanding_renumber (governs : regime.Governs) (line : Nat) (file : Option String)
    {stream : TokenStream} (kept : regime.Expanding stream) :
    regime.Expanding (stream.renumber line file) := by
  obtain ⟨expansion, rfl, origin, lookahead, sources⟩ := kept
  exact ⟨_, rfl, origin, lookahead, governs.streams_renumberBottom line file sources⟩

end Streams

section Free

variable (governs : regime.Governs)
include governs

theorem Governs.follows {stream next : TokenStream} (follows : regime.realm.Follows stream next)
    (kept : regime.Expanding stream) : regime.Expanding next := by
  cases follows with
  | same => exact kept
  | renumbered line file => exact governs.expanding_renumber line file kept
  | moved fuel kind found => exact (governs.move_expanding fuel kind stream).of_gives found kept

theorem Governs.opens {path : String} {stream : TokenStream}
    (opens : regime.realm.Opens path stream) : regime.Expanding stream := by
  obtain ⟨source, scanner, fuel, scanned, made⟩ := opens
  have kept := (governs.opened path source false).of_gives scanned trivial
  exact (governs.expandWith (governs.moves_move fuel) (.scanner scanner) none).of_gives made
    ⟨.scanner kept, governs.rooted⟩

theorem Governs.builds : regime.realm.Builds regime.token where
  defines := by
    intro table name parameters body finish definition fits declares known kept found entry member
    rcases MacroTable.mem_of_mem_insert member with rfl | among
    · obtain ⟨context, next, table, ran, live⟩ := found
      unfold Engine.build at ran
      generalize checked : Macro.build name parameters body finish.location = made at ran
      obtain ⟨built, complaints⟩ := made
      obtain ⟨_, _, reported, ran⟩ := Engine.bind_ok_iff.mp ran
      cases built with
      | error fault => cases ran
      | ok definition =>
        cases ran
        have silence := (Keeps.forM_report (fun complaint : Op.Complaint => complaint.1.location)
          Prod.snd : regime.Keeps True _ _).of_gives ⟨context, _, table, reported, live⟩ trivial
        exact governs.built _ declares known (governs.token_place kept) (by rw [checked])
          (by rwa [checked])
    · exact fits entry among
  undefines name fits entry member := fits entry (List.mem_filter.mp member).1

theorem Governs.token_upcoming (guarded : regime.Guarded session) :
    regime.token (upcoming session) := by
  unfold upcoming
  split
  · exact guarded.finish
  next file rest opened =>
    have among : file ∈ session.files := by simp [opened]
    exact governs.token_head ((guarded.files file among).stream governs.toLawful)

theorem Governs.free : regime.guarding.Free regime.realm where
  retop := by
    rintro ⟨options, includes, files⟩ change _ follows ⟨kept, finish, ended, peeked⟩
    cases files with
    | nil => exact ⟨kept, finish, ended, peeked⟩
    | cons file rest =>
      obtain ⟨first, others⟩ := List.forall_mem_cons.mp kept
      have moved := governs.follows (follows file rfl) first
      exact ⟨List.forall_mem_cons.mpr ⟨moved, others⟩, finish, ended, peeked⟩
  token := governs.token_upcoming
  emitted guarded goesOn plain := ⟨governs.token_upcoming guarded, .inr ⟨goesOn, plain⟩⟩
  builds := governs.builds
  noted guarded files finish _ _ peeked := by
    obtain ⟨kept, last, ended, shown⟩ := guarded
    exact ⟨files ▸ kept, finish ▸ last, finish ▸ ended, peeked ▸ shown⟩
  opened guarded made := ⟨List.forall_mem_cons.mpr ⟨governs.opens made, guarded.files⟩,
    guarded.finish, guarded.ended, guarded.peeked⟩
  left := by
    intro session file rest guarded opened ended
    have files := guarded.files
    rw [opened] at files
    obtain ⟨expanding, others⟩ := List.forall_mem_cons.mp files
    by_cases outermost : rest.isEmpty = true
    · simp only [outermost, if_true]
      exact ⟨others, governs.token_head (expanding.stream governs.toLawful), ended, guarded.peeked⟩
    · simp only [outermost]
      exact ⟨others, guarded.finish, guarded.ended, guarded.peeked⟩
  ended guarded _ := ⟨guarded.finish, .inl guarded.ended⟩
  depth _ := rfl
  commandLine _ := rfl

end Free

/-- An action that succeeds keeps a regime, and takes nothing from the trail of events. -/
def Guards (regime : Regime) (given : Prop) (action : SessionM α)
    (gives : α → Prop := fun _ => True) : Prop :=
  ∀ session context value after next, action session context = .ok (value, after) next →
    regime.Live next → (regime.Live context ∧ ∀ event ∈ context.events, event ∈ next.events) ∧
      (regime.Table context → given → regime.Guarded session →
        regime.Table next ∧ gives value ∧ regime.Guarded after)

namespace Guards

variable {action : SessionM α} {gives gives' : α → Prop}

theorem bind {next : α → SessionM β} {wanted : β → Prop} (first : regime.Guards given action gives)
    (rest : ∀ value, regime.Guards (given ∧ gives value) (next value) wanted) :
    regime.Guards given (action >>= next) wanted := by
  intro session context value last final ran live
  obtain ⟨found, middle, between, began, ran⟩ := Session.bind_ok_iff.mp ran
  obtain ⟨⟨live, longer⟩, goOn⟩ := rest found middle _ _ _ _ ran live
  obtain ⟨⟨live, trails⟩, start⟩ := first _ _ _ _ _ began live
  refine ⟨⟨live, fun event => longer event ∘ trails event⟩, ?_⟩
  intro table holds guarded
  obtain ⟨table, gained, guarded⟩ := start table holds guarded
  exact goOn table ⟨holds, gained⟩ guarded

theorem pure {value : α} (holds : given → gives value) :
    regime.Guards given (pure value) gives := by
  rintro session context _ _ _ ⟨⟩ live
  exact ⟨⟨live, fun _ => id⟩, fun table given guarded => ⟨table, holds given, guarded⟩⟩

theorem last {next : α → β} (first : regime.Guards given action gives) :
    regime.Guards given (action >>= fun value => Pure.pure (next value)) :=
  bind first fun _ => pure fun _ => trivial

theorem modify {change : Session → Session}
    (kept : ∀ {session}, given → regime.Guarded session → regime.Guarded (change session)) :
    regime.Guards given (modify change : SessionM Unit) := by
  rintro session context _ _ _ ⟨⟩ live
  exact ⟨⟨live, fun _ => id⟩, fun table given guarded => ⟨table, trivial, kept given guarded⟩⟩

theorem of_linked (blind : Blind action) (linked : Linked regime.realm regime.guarding.Based action
      fun value session session' => gives value ∧ regime.guarding.Based session session') :
    regime.Guards given action gives := by
  intro session context value after next ran live
  obtain ⟨_, again⟩ := blind session context value after next ran
  obtain ⟨_, _, echo⟩ := again 0 false context rfl
  obtain ⟨told, hears, _⟩ := echo.told
  have counts : regime.realm.Counts next := live
  refine ⟨⟨counts.of_hears hears, hears.traces.grows⟩, fun table _ guarded => ?_⟩
  have twins : regime.guarding.Based session session :=
    ⟨session.files, guarded, by simp [guarding], by simp [guarding]⟩
  obtain ⟨_, _, _, _, table, gained, _, kept, _⟩ := linked.run twins table rfl ran counts
  exact ⟨table, gained, kept⟩

end Guards

theorem guarded_closeFiles (lawful : regime.Lawful) (guarded : regime.Guarded session) :
    regime.Guarded session.closeFiles := by
  obtain ⟨files, finish, ended, peeked⟩ := guarded
  unfold Session.closeFiles
  split
  next file last =>
    obtain ⟨expansion, same, _, lookahead, _⟩ := files file (List.mem_of_getLast? last)
    rw [same]
    exact ⟨by simp, lawful.endOfInput (lawful.token_place lookahead), rfl, peeked⟩
  next => exact ⟨by simp, finish, ended, peeked⟩

section Read

variable (governs : regime.Governs) (fuel : Nat)
include governs

theorem Governs.checkErrorLimit : regime.Guards given Session.checkErrorLimit := by
  have looks {given : Prop} : regime.Guards given Session.rawHead := by
    intro session context _ _ _ ran live
    cases (rawHead_eq session context).symm.trans ran
    exact ⟨⟨live, fun _ => id⟩, fun table _ guarded => ⟨table, trivial, guarded⟩⟩
  have reports {given : Prop} (place : Location) :
      regime.Guards given (Session.report place .tooManyErrors) := by
    rintro session context _ _ _ ⟨⟩ live
    exact ⟨⟨fun silent => absurd (live silent) (by simp [Sink.record]),
      fun _ => Array.mem_push_of_mem _⟩, fun table _ guarded => ⟨table, trivial, guarded⟩⟩
  have stops {given : Prop} (closed : Bool) : regime.Guards given (Session.stop closed) := by
    have closes {given : Prop} : regime.Guards given Session.close :=
      .modify fun _ => guarded_closeFiles governs.toLawful
    refine .bind (.modify fun _ guarded => { guarded with }) fun _ => ?_
    split
    · exact .bind looks fun _ => .bind (reports _) fun _ => closes
    · exact closes
  intro session context value after next ran live
  rw [Session.checkErrorLimit_eq] at ran
  split at ran
  · exact stops _ session context value after next ran live
  · cases ran
    exact ⟨⟨live, fun _ => id⟩, fun table _ guarded => ⟨table, trivial, guarded⟩⟩

theorem Governs.step : regime.Guards given (Session.step fuel)
      fun found => ∀ token ∈ found, regime.Emits token := by
  refine .bind governs.checkErrorLimit fun _ => .of_linked (Session.blind_proceed fuel) ?_
  exact (Session.linked_proceed fuel governs.free Iff.rfl).pre fun _ _ based => based.alike rfl rfl

theorem Governs.readFresh (bound : Nat) :
    regime.Guards given (Session.readFresh fuel bound) regime.Emits := by
  induction bound generalizing given with
  | zero => rintro session context _ _ _ ⟨⟩
  | succ bound ih =>
    refine .bind (governs.step fuel) fun found => ?_
    cases found with
    | none => exact ih
    | some token => exact .pure fun ⟨_, emits⟩ => emits token rfl

theorem Governs.read : regime.Guards given (Session.read fuel) regime.Emits := by
  intro session context value after next ran live
  cases shown : session.peeked with
  | none =>
    rw [Session.read_of_unpeeked fuel shown] at ran
    exact governs.readFresh fuel fuel session context value after next ran live
  | some token =>
    obtain ⟨options, includes, files, depth, onceOnly, inclusions, finish, peeked⟩ := session
    cases shown
    cases ran
    exact ⟨⟨live, fun _ => id⟩, fun table _ guarded => ⟨table, guarded.peeked _ rfl,
      guarded.files, guarded.finish, guarded.ended, by simp⟩⟩

/-- **Reading to the end keeps the regime.** What is read are tokens that a session may give, the
end last. -/
theorem Governs.readAll (bound : Nat) :
    regime.Guards given (Session.readAll fuel bound) fun tokens =>
      ∃ output finish, tokens = output ++ [finish] ∧ finish.isEof = true ∧
        ∀ token ∈ output, regime.Emits token ∧ token.isEof = false := by
  induction bound generalizing given with
  | zero => rintro session context _ _ _ ⟨⟩
  | succ bound ih =>
    refine .bind (governs.read fuel) fun token => ?_
    split
    next ended => exact .pure fun _ => ⟨[], token, rfl, ended, by simp⟩
    next goesOn =>
      refine .bind ih fun rest => .pure ?_
      rintro ⟨⟨_, emits⟩, output, finish, rfl, ended, kept⟩
      have first : regime.Emits token ∧ token.isEof = false := ⟨emits, by simpa using goesOn⟩
      exact ⟨token :: output, finish, rfl, ended, List.forall_mem_cons.mpr ⟨first, kept⟩⟩

theorem Governs.push (source file : String) :
    regime.Guards given (Session.push fuel source file) :=
  .of_linked (Session.blind_push fuel source file)
    ((Session.linked_push fuel governs.free source file).post fun _ _ _ based => ⟨trivial, based⟩)

end Read

end Preproc.Regime
