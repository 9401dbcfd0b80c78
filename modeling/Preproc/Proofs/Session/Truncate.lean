import Preproc.Proofs.Session.Blind
import Preproc.Proofs.Session.Inspect
import Preproc.Proofs.Session.Runs

/-! # The limit on errors truncates a run

A run under a limit on errors does the same as a run without one until, at the beginning of a step,
the limit is reached. Then it says so, closes all files and gives the end.

Main statement: `errorLimit_truncates`.
-/

namespace Preproc

def stopCode : String := Notice.code .tooManyErrors

variable {last final : Context}

namespace Session

/-- Reads to the end. Each token comes with the number of errors that are counted when it is given.
-/
def readCounted (fuel : Nat) : (bound : Nat) → SessionM (List (Token × Nat))
  | 0 => throw .outOfFuel
  | bound + 1 => do
    let token ← read fuel
    let count := (← getThe Context).sink.errorCount
    if token.isEof then return [(token, count)]
    let rest ← readCounted fuel bound
    return (token, count) :: rest

/-- A session that is read without a limit on errors and has nothing to show. -/
structure Unlimited (session : Session) (context : Context) : Prop where
  limit : session.options.errorLimit = 0
  stopped : session.stopped = false
  peeked : session.peeked = none
  reached : ∃ texts, Run.Reached ⟨session, context, texts⟩

variable {session after : Session} {context next : Context} {fuel limit : Nat}

theorem step_of_goesOn {found : Option Token × Session} (goesOn : stops session context = false) :
    step fuel session context = .ok found next ↔ proceed fuel session context = .ok found next := by
  have checks := checkErrorLimit_of_goesOn goesOn
  constructor
  · intro ran
    obtain ⟨_, _, _, checked, ran⟩ := bind_ok_iff.mp ran
    rw [checks] at checked
    cases checked
    exact ran
  · exact fun ran => bind_ok_iff.mpr ⟨(), session, context, checks, ran⟩

/-- Without a limit a step keeps a session unlimited. Under a limit that is not reached it does the
same. -/
theorem Unlimited.step {given : Option Token} (unlimited : session.Unlimited context)
    (ran : step fuel session context = .ok (given, after) next) :
    after.Unlimited next ∧ context.Gains next ∧ (context.sink.errorCount < limit →
      Session.step fuel (session.withLimit limit) context =
        .ok (given, after.withLimit limit) next) := by
  obtain ⟨texts, reached⟩ := unlimited.reached
  have reached : Run.Reached ⟨after, next, session.textsFor after texts⟩ := by
    refine reached.goes (.step fuel ?_)
    simp only [Run.step?, ran]
  have goesOn : stops session context = false := by simp [stops, unlimited.limit]
  obtain ⟨gains, keeps, ran⟩ :=
    (blind_proceed fuel).limited ((step_of_goesOn goesOn).mp ran)
  refine ⟨⟨?_, ?_, ?_, _, reached⟩, gains, fun few => ?_⟩
  · rw [keeps.options, unlimited.limit]
  · rw [keeps.stopped, unlimited.stopped]
  · rw [keeps.peeked, unlimited.peeked]
  · refine (step_of_goesOn ?_).mpr (ran limit)
    simp [stops, withLimit, Nat.not_le.mpr few]

theorem Unlimited.isEof_closeFiles (unlimited : session.Unlimited context)
    (nonempty : session.files ≠ []) : session.closeFiles.finish.isEof = true := by
  obtain ⟨texts, reached⟩ := unlimited.reached
  unfold closeFiles
  cases last : session.files.getLast? with
  | none => exact absurd (List.getLast?_eq_none_iff.mp last) nonempty
  | some file =>
    obtain ⟨text, reads⟩ := reached.sane.exists_text (List.mem_of_getLast? last)
    obtain ⟨expansion, stream, _⟩ := reads.grounded
    dsimp only
    rw [stream]
    rfl

theorem Unlimited.stop (unlimited : session.Unlimited context) (positive : 0 < limit)
    (many : limit ≤ context.sink.errorCount) : ∃ finish after last,
    Session.step fuel (session.withLimit limit) context = .ok (some finish, after) last ∧
      (session.files = [] ∧ finish = session.finish ∧ last = context ∨
        finish.isEof = true ∧ ∃ diagnostic, context.Tells last [diagnostic] ∧
          diagnostic.code = some stopCode) := by
  have reached : stops (session.withLimit limit) context = true := by
    simp [stops, withLimit, unlimited.stopped, many, Nat.ne_of_gt positive]
  have checks : checkErrorLimit (session.withLimit limit) context =
      Session.stop session.files.isEmpty (session.withLimit limit) context := by
    rw [checkErrorLimit_eq, if_pos reached]
    rfl
  let halted : Session := { session.withLimit limit with stopped := true }
  have proceeds (context : Context) : proceed fuel halted.closeFiles context =
      .ok (some halted.closeFiles.finish, halted.closeFiles) context := by
    rfl
  have steps {last : Context} (stopped : Session.stop session.files.isEmpty
      (session.withLimit limit) context = .ok ((), halted.closeFiles) last) :
      Session.step fuel (session.withLimit limit) context =
        .ok (some halted.closeFiles.finish, halted.closeFiles) last :=
    bind_ok_iff.mpr ⟨(), halted.closeFiles, last, checks.trans stopped, proceeds last⟩
  by_cases closed : session.files = []
  · refine ⟨halted.closeFiles.finish, halted.closeFiles, context, steps ?_, .inl ⟨closed, ?_, rfl⟩⟩
    · rw [closed]
      rfl
    · simp [closeFiles, halted, withLimit, closed]
  · have ended : halted.closeFiles.finish.isEof = true := unlimited.isEof_closeFiles closed
    let place := (Regime.upcoming halted).location
    let told : Context :=
      { context with
        sink := context.sink.report place .tooManyErrors
        events := context.events.push (.reported (context.sink.diagnosticOf place .tooManyErrors)) }
    refine ⟨halted.closeFiles.finish, halted.closeFiles, told, steps ?_,
      .inr ⟨ended, context.sink.diagnosticOf place .tooManyErrors, Array.toList_push, rfl⟩⟩
    have nonempty : session.files.isEmpty = false := by simpa using closed
    rw [nonempty]
    refine bind_ok_iff.mpr ⟨(), halted, context, rfl, ?_⟩
    exact bind_ok_iff.mpr ⟨_, _, _, Regime.rawHead_eq halted context, rfl⟩

/-- How a limit cuts a reading short: at some context on the way it is reached and said to be, or it
is reached when all files are closed. -/
inductive CutsShort (limit : Nat) (session after : Session) (context next : Context) (token : Token)
    (finish : Token) (last : Context) : Prop
  | said {middle : Context} {diagnostic : Diagnostic} (ended : finish.isEof = true)
      (gains : context.Gains middle) (gains' : middle.Gains next)
      (many : limit ≤ middle.sink.errorCount) (tells : middle.Tells last [diagnostic])
      (code : diagnostic.code = some stopCode)
  | closed (files : after.files = []) (given : after.finish = token) (same : finish = token)
      (ended : last = next) (many : limit ≤ next.sink.errorCount)

variable {token : Token} {bound : Nat} {full : List (Token × Nat)}

theorem CutsShort.before {middle : Session} {between : Context} {finish : Token}
    (gains : context.Gains between)
    (cuts : CutsShort limit middle after between next token finish last) :
    CutsShort limit session after context next token finish last := by
  cases cuts with
  | said ended gains' gains'' many tells code =>
    exact .said ended (gains.trans gains') gains'' many tells code
  | closed files given same ended many => exact .closed files given same ended many

/-- Reading a token without a limit and under one: the limit is not reached before the last step, or
it cuts the reading short. -/
theorem Unlimited.readFresh (positive : 0 < limit) (unlimited : session.Unlimited context)
    (ran : readFresh fuel bound session context = .ok (token, after) next) :
    after.Unlimited next ∧ context.Gains next ∧
      (context.sink.errorCount < limit ∧ Session.readFresh fuel bound
        (session.withLimit limit) context =
          .ok (token, after.withLimit limit) next ∨
        ∃ finish after' last, Session.readFresh fuel bound (session.withLimit limit) context =
            .ok (finish, after') last ∧
          CutsShort limit session after context next token finish last) := by
  induction bound generalizing session context with
  | zero => cases ran
  | succ bound ih =>
    obtain ⟨given, middle, between, stepped, later⟩ := bind_ok_iff.mp ran
    obtain ⟨unlimited', gains, same⟩ := unlimited.step stepped
    have rest : after.Unlimited next ∧ between.Gains next := by
      cases given with
      | some given =>
        cases later
        exact ⟨unlimited', .of_sink rfl⟩
      | none =>
        obtain ⟨unlimited, gains, _⟩ := ih unlimited' later
        exact ⟨unlimited, gains⟩
    refine ⟨rest.1, gains.trans rest.2, ?_⟩
    rcases Nat.lt_or_ge context.sink.errorCount limit with few | many
    · cases given with
      | some given =>
        cases later
        exact .inl ⟨few, bind_ok_iff.mpr ⟨_, _, _, same few, rfl⟩⟩
      | none =>
        rcases (ih unlimited' later).2.2 with ⟨_, ran'⟩ | ⟨finish, after', last, ran', cuts⟩
        · exact .inl ⟨few, bind_ok_iff.mpr ⟨_, _, _, same few, ran'⟩⟩
        · exact .inr ⟨finish, after', last, bind_ok_iff.mpr ⟨_, _, _, same few, ran'⟩,
            cuts.before gains⟩
    · obtain ⟨finish, after', last, stopped, ends⟩ := unlimited.stop positive many
      refine .inr ⟨finish, after', last, bind_ok_iff.mpr ⟨_, _, _, stopped, rfl⟩, ?_⟩
      rcases ends with ⟨files, rfl, rfl⟩ | ⟨ended, diagnostic, tells, code⟩
      · rw [step_of_no_files files unlimited.limit] at stepped
        cases stepped
        cases later
        exact .closed files rfl rfl rfl many
      · exact .said ended (.of_sink rfl) (gains.trans rest.2) many tells code

variable {counted cut front : List (Token × Nat)}

theorem readCounted_succ_iff :
    readCounted fuel (bound + 1) session context = .ok (counted, after) next ↔
      ∃ token middle between, read fuel session context = .ok (token, middle) between ∧
        (token.isEof = true ∧ counted = [(token, between.sink.errorCount)] ∧ after = middle ∧
            next = between ∨
          token.isEof = false ∧ ∃ rest, readCounted fuel bound middle between =
            .ok (rest, after) next ∧
            counted = (token, between.sink.errorCount) :: rest) := by
  refine bind_ok_iff.trans (exists_congr fun token => exists_congr fun middle =>
    exists_congr fun between => and_congr_right fun _ => ?_)
  cases token.isEof with
  | true =>
    constructor
    · rintro ⟨⟩
      exact .inl ⟨rfl, rfl, rfl, rfl⟩
    · rintro (⟨_, rfl, rfl, rfl⟩ | ⟨⟨⟩, _⟩)
      rfl
  | false =>
    constructor
    · intro ran
      obtain ⟨_, _, _, ⟨⟩, ran⟩ := bind_ok_iff.mp ran
      obtain ⟨rest, _, _, ran, ⟨⟩⟩ := bind_ok_iff.mp ran
      exact .inr ⟨rfl, rest, ran, rfl⟩
    · rintro (⟨⟨⟩, _⟩ | ⟨_, rest, ran, rfl⟩)
      exact bind_ok_iff.mpr ⟨between, middle, between, rfl, bind_ok_iff.mpr ⟨rest, _, _, ran, rfl⟩⟩

theorem readCounted_of_isEof
    (taken : read fuel session context = .ok (token, after) next) (ended : token.isEof = true) :
    readCounted fuel (bound + 1) session context =
      .ok ([(token, next.sink.errorCount)], after) next :=
  readCounted_succ_iff.mpr ⟨token, after, next, taken, .inl ⟨ended, rfl, rfl, rfl⟩⟩

theorem readAll_eq (bound : Nat) :
    readAll fuel bound = List.map (·.1) <$> readCounted fuel bound := by
  induction bound with
  | zero => rfl
  | succ bound ih =>
    simp only [readAll, readCounted, ih, map_bind]
    refine bind_congr fun token => ?_
    cases token.isEof with
    | true => rfl
    | false =>
      simp only [Bool.false_eq_true, if_false, map_bind, bind_map_left]
      rfl

theorem readAll_iff {tokens : List Token} :
    readAll fuel bound session context = .ok (tokens, after) next ↔
      ∃ counted, readCounted fuel bound session context = .ok (counted, after) next ∧
        tokens = counted.map (·.1) := by
  rw [readAll_eq, map_eq_pure_bind]
  constructor
  · intro ran
    obtain ⟨counted, _, _, read, ⟨⟩⟩ := bind_ok_iff.mp ran
    exact ⟨counted, read, rfl⟩
  · rintro ⟨counted, read, rfl⟩
    exact bind_ok_iff.mpr ⟨counted, _, _, read, rfl⟩

theorem ends_of_readCounted
    (ran : readCounted fuel bound session context = .ok (counted, after) next) :
    ∃ front finish, counted = front ++ [finish] ∧ finish.1.isEof = true ∧
      ∀ given ∈ front, given.1.isEof = false := by
  induction bound generalizing session context counted with
  | zero => cases ran
  | succ bound ih =>
    obtain ⟨token, middle, between, taken, ⟨ended, rfl, _⟩ | ⟨goesOn, rest, rested, rfl⟩⟩ :=
      readCounted_succ_iff.mp ran
    · exact ⟨[], _, rfl, ended, by simp⟩
    · obtain ⟨front, finish, rfl, last, others⟩ := ih rested
      exact ⟨_ :: front, finish, rfl, last, List.forall_mem_cons.mpr ⟨goesOn, others⟩⟩

theorem readFresh_of_no_files (files : session.files = [])
    (unlimited : session.options.errorLimit = 0)
    (ran : readFresh fuel bound session context = .ok (token, after) next) :
    token = session.finish ∧ after = session ∧ next = context := by
  cases bound with
  | zero => cases ran
  | succ bound =>
    obtain ⟨given, middle, between, stepped, later⟩ := bind_ok_iff.mp ran
    rw [step_of_no_files files unlimited] at stepped
    cases stepped
    cases later
    exact ⟨rfl, rfl, rfl⟩

theorem readCounted_ne_ok (files : session.files = []) (unlimited : session.Unlimited context)
    (endless : session.finish.isEof = false) (bound : Nat) (counted : List (Token × Nat)) :
    readCounted fuel bound session context ≠ .ok (counted, after) next := by
  induction bound generalizing counted with
  | zero => rintro ⟨⟩
  | succ bound ih =>
    intro ran
    obtain ⟨token, middle, between, taken, later⟩ := readCounted_succ_iff.mp ran
    rw [read_of_unpeeked _ unlimited.peeked] at taken
    obtain ⟨rfl, rfl, rfl⟩ := readFresh_of_no_files files unlimited.limit taken
    rcases later with ⟨ended, _⟩ | ⟨_, rest, ran, _⟩
    · rw [endless] at ended
      cases ended
    · exact ih rest ran

/-- What is told under a limit: all that is told without one, or some of it, with errors enough, and
that these are too many. -/
def ToldUnder (limit : Nat) (context final last : Context) : Prop :=
  last = final ∨ ∃ middle diagnostic, context.Gains middle ∧ middle.Gains final ∧
    limit ≤ middle.sink.errorCount ∧ middle.Tells last [diagnostic] ∧
    diagnostic.code = some stopCode

theorem ToldUnder.before {start : Context} (gains : start.Gains context)
    (told : ToldUnder limit context final last) : ToldUnder limit start final last := by
  rcases told with same | ⟨middle, diagnostic, gains', rest⟩
  · exact .inl same
  · exact .inr ⟨middle, diagnostic, gains.trans gains', rest⟩

/-- A reading under a limit, and the same without one. The tokens in front are the ones before the
end; `final` is where the reading without a limit ends and `last` where the other one does. -/
structure Cuts (limit : Nat) (context final last : Context) (full cut front : List (Token × Nat)) :
    Prop where
  whole : ∃ finish : Token × Nat, cut = front ++ [finish] ∧ finish.1.isEof = true
  ahead : front <+: full
  goesOn : ∀ given ∈ front, given.1.isEof = false
  told : ToldUnder limit context final last
  late : (front.filter fun given => limit ≤ given.2).length ≤ 1
  stops : limit ≤ context.sink.errorCount → front = []

theorem Cuts.nil {finish : Token × Nat}
    (ended : finish.1.isEof = true) (told : ToldUnder limit context final last) :
    Cuts limit context final last full [finish] [] where
  whole := ⟨finish, rfl, ended⟩
  ahead := List.nil_prefix
  goesOn := by simp
  told := told
  late := Nat.zero_le 1
  stops := fun _ => rfl

theorem Cuts.cons {between final last : Context} {token : Token}
    {full cut front : List (Token × Nat)}
    (gains : context.Gains between) (few : context.sink.errorCount < limit)
    (goesOn : token.isEof = false) (cuts : Cuts limit between final last full cut front) :
    Cuts limit context final last ((token, between.sink.errorCount) :: full)
      ((token, between.sink.errorCount) :: cut) ((token, between.sink.errorCount) :: front) where
  whole := by
    obtain ⟨finish, rfl, ended⟩ := cuts.whole
    exact ⟨finish, rfl, ended⟩
  ahead := List.prefix_cons_inj _ |>.mpr cuts.ahead
  goesOn := List.forall_mem_cons.mpr ⟨goesOn, cuts.goesOn⟩
  told := cuts.told.before gains
  late := by
    -- After the token that is given late, nothing is.
    rcases Nat.lt_or_ge between.sink.errorCount limit with before | late
    · rw [List.filter_cons_of_neg (by simpa using before)]
      exact cuts.late
    · rw [cuts.stops late]
      exact List.length_filter_le _ _
  stops := fun many => absurd many (Nat.not_le.mpr few)

theorem Cuts.tokens (cuts : Cuts limit context final last full cut front)
    (ran : readCounted fuel bound session context = .ok (full, after) final) :
    ∃ ahead rest finish finish', cut.map (·.1) = ahead ++ [finish] ∧
      full.map (·.1) = ahead ++ rest ++ [finish'] ∧ finish.isEof = true ∧ finish'.isEof = true ∧
      ∀ token ∈ ahead ++ rest, token.isEof = false := by
  obtain ⟨body, finish', rfl, ended', goesOn⟩ := ends_of_readCounted ran
  obtain ⟨finish, rfl, ended⟩ := cuts.whole
  have ahead : front <+: body := by
    refine (List.prefix_concat_iff.mp cuts.ahead).resolve_left fun same => ?_
    have given := cuts.goesOn finish' (by simp [same])
    rw [ended'] at given
    cases given
  obtain ⟨rest, rfl⟩ := ahead
  refine ⟨front.map (·.1), rest.map (·.1), finish.1, finish'.1, by simp, by simp, ended, ended', ?_⟩
  rw [← List.map_append]
  exact List.forall_mem_map.mpr goesOn

theorem Cuts.length_late_le (cuts : Cuts limit context final last full cut front) :
    (cut.filter fun given => !given.1.isEof && decide (limit ≤ given.2)).length ≤ 1 := by
  obtain ⟨finish, rfl, ended⟩ := cuts.whole
  have last : ([finish].filter fun given => !given.1.isEof && decide (limit ≤ given.2)) = [] := by
    simp [ended]
  have same : (front.filter fun given => !given.1.isEof && decide (limit ≤ given.2)) =
      front.filter fun given => limit ≤ given.2 :=
    List.filter_congr fun given member => by rw [cuts.goesOn given member, Bool.not_false,
      Bool.true_and]
  rw [List.filter_append, last, List.append_nil, same]
  exact cuts.late

/-- **A limit cuts a reading short or leaves it alone.** -/
theorem Unlimited.readCounted (positive : 0 < limit) (unlimited : session.Unlimited context)
    (ran : readCounted fuel bound session context = .ok (full, after) final) :
    context.Gains final ∧ ∃ cut after' last front,
      Session.readCounted fuel bound (session.withLimit limit) context = .ok (cut, after') last ∧
        Cuts limit context final last full cut front := by
  induction bound generalizing session context full with
  | zero => cases ran
  | succ bound ih =>
    obtain ⟨token, middle, between, taken, later⟩ := readCounted_succ_iff.mp ran
    rw [read_of_unpeeked _ unlimited.peeked] at taken
    have peeked : (session.withLimit limit).peeked = none := unlimited.peeked
    obtain ⟨unlimited', gains, reads⟩ := unlimited.readFresh positive taken
    rw [← read_of_unpeeked _ peeked] at reads
    -- Where a token other than the end is given, the rest is cut as the induction says.
    have gains' : between.Gains final := by
      rcases later with ⟨_, _, _, rfl⟩ | ⟨_, rest, rested, _⟩
      · exact .of_sink rfl
      · exact (ih unlimited' rested).1
    refine ⟨gains.trans gains', ?_⟩
    rcases reads with ⟨few, reads⟩ | ⟨finish, after', last, reads, cuts⟩
    · rcases later with ⟨ended, _, _, rfl⟩ | ⟨goesOn, rest, rested, rfl⟩
      · exact ⟨_, _, _, [], readCounted_of_isEof reads ended, .nil ended (.inl rfl)⟩
      · obtain ⟨_, cut, after', last, front, rested', cuts⟩ := ih unlimited' rested
        exact ⟨_, after', last, _ :: front, readCounted_succ_iff.mpr ⟨_, _, _, reads,
          .inr ⟨goesOn, _, rested', rfl⟩⟩, cuts.cons gains few goesOn⟩
    · cases cuts with
      | said ended gained gained' many tells code =>
        exact ⟨_, _, _, [], readCounted_of_isEof reads ended,
          .nil ended (.inr ⟨_, _, gained, gained'.trans gains', many, tells, code⟩)⟩
      | closed files given same ends many =>
        subst same ends
        rcases later with ⟨ended, _, _, rfl⟩ | ⟨goesOn, rest, rested, _⟩
        · exact ⟨_, _, _, [], readCounted_of_isEof reads ended, .nil ended (.inl rfl)⟩
        · exact absurd rested (readCounted_ne_ok files unlimited' (given ▸ goesOn) bound rest)

end Session

/-- What a limit on errors makes of a result: the tokens before the end are some of the first ones,
and the diagnostics are all, or some of the first ones with errors enough, and then that these are
too many. -/
structure Result.Truncates (limit : Nat) (cut full : Result) : Prop where
  tokens : ∃ ahead rest finish finish', cut.tokens = ahead ++ [finish] ∧
    full.tokens = ahead ++ rest ++ [finish'] ∧ finish.isEof = true ∧ finish'.isEof = true ∧
    ∀ token ∈ ahead ++ rest, token.isEof = false
  diagnostics : cut.diagnostics = full.diagnostics ∨ ∃ ahead stop, ahead <+: full.diagnostics ∧
    limit ≤ ahead.countP (·.severity == .error) ∧ cut.diagnostics = ahead ++ [stop] ∧
    stop.code = some "PPS-PP-0304"
  unsaid : ∀ diagnostic ∈ full.diagnostics, diagnostic.code ≠ some "PPS-PP-0304"

section Run

variable {fuel limit : Nat} {options : Options} {includes : IncludeSystem} {source file : String}

theorem Session.unlimited_push {session : Session} {context : Context}
    (opened : push fuel source file { options := { options with errorLimit := 0 }, includes }
      options.context = .ok ((), session) context) :
    session.Unlimited context := by
  obtain ⟨keeps, _⟩ := blind_push fuel source file _ _ _ _ _ opened
  let start : Session := { options := { options with errorLimit := 0 }, includes }
  have created : Session.create start.options includes none = .ok (start, options.context) := rfl
  refine ⟨?_, keeps.stopped, keeps.peeked, start.textsBefore ++ [source],
    (Run.Reached.created created).goes (.push fuel source file ?_)⟩
  · rw [keeps.options]
  · simp only [Run.push?, start, opened]

theorem Session.ToldUnder.truncates {start : Context}
    (fresh : start.sink.diagnostics = #[] ∧ start.sink.errorCount = 0)
    (told : ToldUnder limit start final last) :
    last.sink.diagnostics.toList = final.sink.diagnostics.toList ∨
      ∃ ahead stop, ahead <+: final.sink.diagnostics.toList ∧
        limit ≤ ahead.countP (·.severity == .error) ∧
        last.sink.diagnostics.toList = ahead ++ [stop] ∧ stop.code = some "PPS-PP-0304" := by
  rcases told with rfl | ⟨middle, stop, gains, ⟨rest, tells, _⟩, many, tells', code⟩
  · exact .inl rfl
  · obtain ⟨ahead, tells'', counted, _⟩ := gains
    simp only [Context.Tells, fresh.1, List.nil_append] at tells''
    refine .inr ⟨ahead, stop, ⟨rest, ?_⟩, ?_, ?_, code⟩
    · rw [← tells'', tells]
    · rwa [counted, fresh.2, Nat.zero_add] at many
    · rw [tells', tells'']

/-- **A limit on errors only truncates.** Where the run without a limit ends, so does the run under
one. Its result is that of the other run, truncated, and after the errors have reached the limit at
most one token is given before the end. -/
theorem errorLimit_truncates {full : Result} {final : Context} (positive : 0 < limit)
    (ran : preprocessWithin fuel { options with errorLimit := 0 } includes source file =
      .ok full final) :
    ∃ cut last, preprocessWithin fuel { options with errorLimit := limit } includes source file =
        .ok cut last ∧
      cut.Truncates limit full ∧
      ∃ session middle counted after,
        Session.push fuel source file
          { options := { options with errorLimit := limit }, includes } options.context =
            .ok ((), session) middle ∧
        Session.readCounted fuel fuel session middle = .ok (counted, after) last ∧
        cut.tokens = counted.map (·.1) ∧
        (counted.filter fun given => !given.1.isEof && limit ≤ given.2).length ≤ 1 := by
  obtain ⟨tokens, session, middle, opened, after, read, rfl⟩ := of_preprocessWithin ran
  obtain ⟨whole, reads, rfl⟩ := Session.readAll_iff.mp read
  obtain ⟨opening, _, opened'⟩ := (Session.blind_push fuel source file).limited opened
  obtain ⟨gains, counted, after', last, front, reads', cuts⟩ :=
    (Session.unlimited_push opened).readCounted positive reads
  obtain ⟨told, tells, _, unsaid⟩ := opening.trans gains
  have said : final.sink.diagnostics.toList = told := tells
  refine ⟨_, last, preprocessWithin_of (opened' limit) (Session.readAll_iff.mpr ⟨_, reads', rfl⟩),
    ?_,
    _, _, counted, after', opened' limit, reads', rfl, ?_⟩
  · exact {
      tokens := cuts.tokens reads
      diagnostics := Session.ToldUnder.truncates ⟨rfl, rfl⟩ (cuts.told.before opening)
      unsaid := fun diagnostic member => unsaid diagnostic (said ▸ member) }
  · exact cuts.length_late_le

/-- A call with an argument too few reaches the limit. One token is given after it, and another one
is cut off. -/
theorem errorLimit_truncates_call :
    let source := "#define f(x,y) x\nf(1) b c\n"
    ∃ full final, preprocessWithin 100 { errorLimit := 0 } default source "main.c" =
      .ok full final ∧
      ∃ cut last, preprocessWithin 100 { errorLimit := 1 } default source "main.c" = .ok cut last ∧
        cut.Truncates 1 full ∧ full.tokens.map (·.lexeme) = ["b", "c", ""] ∧
        cut.tokens.map (·.lexeme) = ["b", ""] := by
  intro source
  obtain ⟨full, final, ran, tokens⟩ := Engine.exists_ok_of_check
    (show Engine.passes (fun full => full.tokens.map (·.lexeme) == ["b", "c", ""])
      (preprocessWithin 100 { errorLimit := 0 } default source "main.c") = true by decide +kernel)
  obtain ⟨cut, last, ran', tokens'⟩ := Engine.exists_ok_of_check
    (show Engine.passes (fun cut => cut.tokens.map (·.lexeme) == ["b", ""])
      (preprocessWithin 100 { errorLimit := 1 } default source "main.c") = true by decide +kernel)
  obtain ⟨cut', last', ran'', truncates, _⟩ :=
    @errorLimit_truncates 100 1 {} default source "main.c" full final Nat.one_pos ran
  rw [ran'] at ran''
  cases ran''
  exact ⟨full, final, ran, cut, last, ran', truncates, beq_iff_eq.mp tokens, beq_iff_eq.mp tokens'⟩

end Run

end Preproc
