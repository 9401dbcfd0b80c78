import Mathlib.Data.List.Chain
import Preproc.Proofs.Expansion.Exact
import Preproc.Proofs.Expansion.Identity

/-! # Looking at the next token of an expansion

To show its next token an expansion is settled: it skips newlines, collects arguments, begins
invocations, and gives up calls that nothing closes. The next request settles it once more, from
where it has come by then. An expansion that was settled is left as it is by settling it again, and
nothing is reported a second time; only the origin of a name that came to stand alone on its stack
may be set anew, and it would be set anew by the next invocation anyway.

Main statement: `TokenStream.peeking_transparent`.
-/

namespace Preproc

open TokenStream (move Mover readStack peekStack readWith peekWith showing)
open Engine (Grants Meets akin bind_ok_iff kinship_akin)

namespace Expansion

variable {table : MacroTable} {expansion : Expansion TokenStream}

/-- An expansion as it is, or with the origin of an invocation that begins at its next token. -/
def Again (expansion again : Expansion TokenStream) : Prop :=
  again = expansion ∨ again = expansion.rooted

theorem Rests.quiet_attempt (rests : expansion.rooted.Rests table) (fuel bound : Nat) :
    Grants table False (expansion.attempt (move fuel) bound) fun attempt =>
      ∃ again, attempt = .stays again ∧ expansion.Again again := by
  refine (rests.attempts lookahead_rooted leftAlone_rooted sources_rooted (fun _ => trivial)
    fun _ => (TokenStream.direct_move fuel).peekStack).imp ?_
  rintro _ (rfl | ⟨rfl, _⟩)
  · exact ⟨_, rfl, .inl rfl⟩
  · exact ⟨_, rfl, .inr rfl⟩

theorem Rests.quiet_settle (rests : expansion.rooted.Rests table) (fuel bound : Nat) :
    Grants table False (expansion.settle (move fuel) bound) expansion.Again := by
  cases bound with
  | zero => exact .throw trivial
  | succ bound =>
    apply Meets.bind (rests.quiet_attempt fuel bound)
    rintro _ ⟨again, rfl, same⟩
    exact .pure same

variable {again : Expansion TokenStream}

theorem Again.rooted (same : expansion.Again again) : again.rooted = expansion.rooted := by
  rcases same with rfl | rfl
  · rfl
  · exact rooted_rooted

theorem Again.lookahead (same : expansion.Again again) : again.lookahead = expansion.lookahead := by
  rcases same with rfl | rfl
  · rfl
  · exact lookahead_rooted

theorem Again.alike {other : Expansion TokenStream} {like : Likeness} {good : Token → Prop}
    (same : expansion.Again again) (alike : expansion.Alike like good other) :
    again.Alike like good other := by
  rcases same with rfl | rfl
  · exact alike
  by_cases sets : expansion.sources.length = 1 ∧ expansion.inherited = none
  · have single : (expansion.sources.length == 1 && expansion.inherited.isNone) = true := by
      simp [sets]
    unfold Expansion.rooted
    rw [if_pos single]
    exact { alike with begun := .inr ⟨sets.2, sets.1⟩ }
  · have kept : expansion.rooted = expansion :=
      rooted_eq_iff.mpr fun one missing => absurd ⟨one, missing⟩ sets
    rw [kept]
    exact alike

/-- An expansion, settled by now, and one that would be alike if it were settled. -/
structure Ahead (table : MacroTable) (fuel : Nat) (expansion : Expansion TokenStream)
    (context : Context) (other : Expansion TokenStream) (context' : Context) : Prop where
  rests : expansion.rooted.Rests table
  settles : ∃ good settled later, Tame good ∧
    other.settle (move fuel) fuel context' = .ok settled later ∧
      expansion.Alike .exact good settled ∧ akin table context later

/-- Two expansions that have given the same tokens, where the first one may have been looked at
since. -/
def InStep (table : MacroTable) (fuel : Nat) (expansion : Expansion TokenStream)
    (context : Context) (other : Expansion TokenStream) (context' : Context) : Prop :=
  (∃ good, Tame good ∧ expansion.Alike .exact good other ∧ akin table context context') ∨
    Ahead table fuel expansion context other context'

variable {fuel : Nat} {context context' next : Context} {other settled : Expansion TokenStream}

theorem InStep.settle (inStep : InStep table fuel expansion context other context')
    (settles : expansion.settle (move fuel) fuel context = .ok settled next) :
    Ahead table fuel settled next other context' := by
  rcases inStep with ⟨good, tame, alike, same⟩ |
    ⟨rests, good, settled', later, tame, settles', alike, same⟩
  · have follows := alike.settle (Likeness.lawful_exact table) (kinship_akin table)
      (Likeness.agree_exact (kinship_akin table) fuel) tame (Nat.le_refl fuel) context context' same
    rw [settles] at follows
    obtain ⟨settled', later, settles', same, alike, rests, _⟩ := follows
    exact ⟨rests, good, settled', later, tame, settles', alike, same⟩
  · obtain ⟨kept, quiet, again⟩ := (rests.quiet_settle fuel fuel).done same.1 settles
    refine ⟨again.rooted ▸ rests, good, settled', later, tame, settles', again.alike alike, kept,
      same.2.1, ?_⟩
    rw [quiet.resolve_left id]
    exact same.2.2

theorem Ahead.advance (ahead : Ahead table fuel expansion context other context')
    (advances : expansion.advance (move fuel) context = .ok settled next) :
    ∃ settled' later other' next',
      other.settle (move fuel) fuel context' = .ok settled' later ∧
        settled'.advance (move fuel) later = .ok other' next' ∧
        settled'.lookahead = expansion.lookahead ∧ next'.sink = next.sink ∧
        InStep table fuel settled next other' next' := by
  obtain ⟨_, good, settled', later, tame, settles', alike, same⟩ := ahead
  have follows := alike.advance (Likeness.agree_exact (kinship_akin table) fuel) context later same
  rw [advances] at follows
  obtain ⟨other', next', advances', same', alike'⟩ := follows
  exact ⟨settled', later, other', next', settles', advances',
    Likeness.same_exact.mp alike.lookahead, same'.2.2, .inl ⟨good, tame, alike'.1, same'⟩⟩

end Expansion

namespace TokenStream

open Expansion (InStep Ahead)

/-- What can be asked of a stream. -/
inductive Request where
  | read
  | peek
  deriving DecidableEq, Repr

/-- The answer to a request: the token that was given, and the diagnostics by then. -/
structure Answer where
  request : Request
  token : Token
  diagnostics : Array Diagnostic

/-- Reads or peeks. -/
def ask (fuel : Nat) : Request → TokenStream → Engine (Token × TokenStream)
  | .read => read fuel
  | .peek => peek fuel

/-- The answers to requests that are made one after the other. -/
def askAll (fuel : Nat) : List Request → TokenStream → Engine (List Answer)
  | [], _ => return []
  | request :: requests, stream => do
    let (token, stream) ← ask fuel request stream
    let diagnostics := (← get).sink.diagnostics
    return { request, token, diagnostics } :: (← askAll fuel requests stream)

variable {table : MacroTable} {fuel : Nat} {context context' last : Context}
  {expansion other : Expansion TokenStream} {requests : List Request} {answers : List Answer}
  {stream rest : TokenStream} {token : Token} {next : Context}

theorem askAll_cons {request : Request} :
    askAll fuel (request :: requests) stream context = .ok answers last ↔
      ∃ token rest next tail, ask fuel request stream context = .ok (token, rest) next ∧
        askAll fuel requests rest next = .ok tail last ∧
        answers = ⟨request, token, next.sink.diagnostics⟩ :: tail := by
  constructor
  · intro ran
    obtain ⟨⟨token, rest⟩, next, asked, ran⟩ := bind_ok_iff.mp ran
    obtain ⟨_, _, got, ran⟩ := bind_ok_iff.mp ran
    cases got
    obtain ⟨tail, _, later, ran⟩ := bind_ok_iff.mp ran
    cases ran
    exact ⟨token, rest, next, tail, asked, later, rfl⟩
  · rintro ⟨token, rest, next, tail, asked, later, rfl⟩
    refine bind_ok_iff.mpr ⟨(token, rest), next, asked, bind_ok_iff.mpr ⟨next, next, rfl, ?_⟩⟩
    exact bind_ok_iff.mpr ⟨tail, last, later, rfl⟩

theorem peek_expansion
    (asked : ask (fuel + 1) .peek (.expansion expansion) context = .ok (token, rest) next) :
    ∃ settled, expansion.settle (move fuel) fuel context = .ok settled next ∧
      token = settled.lookahead ∧ rest = .expansion settled := by
  obtain ⟨_, _, moved, ran⟩ := bind_ok_iff.mp asked
  obtain ⟨settled, _, settles, wrapped⟩ := bind_ok_iff.mp moved
  cases wrapped
  cases ran
  exact ⟨settled, settles, rfl, rfl⟩

theorem read_expansion :
    ask (fuel + 1) .read (.expansion expansion) context = .ok (token, rest) next ↔
      ∃ settled middle advanced, expansion.settle (move fuel) fuel context = .ok settled middle ∧
        settled.advance (move fuel) middle = .ok advanced next ∧
        token = settled.lookahead ∧ rest = .expansion advanced := by
  constructor
  · intro asked
    obtain ⟨_, middle, moved, ran⟩ := bind_ok_iff.mp asked
    obtain ⟨settled, _, settles, wrapped⟩ := bind_ok_iff.mp moved
    cases wrapped
    obtain ⟨_, _, moved, ran⟩ := bind_ok_iff.mp ran
    obtain ⟨advanced, _, advances, wrapped⟩ := bind_ok_iff.mp moved
    cases wrapped
    cases ran
    exact ⟨settled, middle, advanced, settles, advances, rfl, rfl⟩
  · rintro ⟨settled, middle, advanced, settles, advances, rfl, rfl⟩
    have settled' : move (fuel + 1) .settle (.expansion expansion) context =
        .ok (.expansion settled) middle := bind_ok_iff.mpr ⟨settled, middle, settles, rfl⟩
    have advanced' : move (fuel + 1) .advance (.expansion settled) middle =
        .ok (.expansion advanced) next := bind_ok_iff.mpr ⟨advanced, next, advances, rfl⟩
    exact bind_ok_iff.mpr ⟨_, _, settled', bind_ok_iff.mpr ⟨_, _, advanced', rfl⟩⟩

/-- **One request.** After a request the expansions are in step again, with a read on the second
side if it was a read and with nothing otherwise; and after a peek the first one rests at the token
that was shown. -/
theorem ask_inStep {request : Request} (inStep : InStep table fuel expansion context other context')
    (asked : ask (fuel + 1) request (.expansion expansion) context = .ok (token, rest) next) :
    ∃ expansion', rest = .expansion expansion' ∧ match request with
      | .peek => Ahead table fuel expansion' next other context' ∧ expansion'.lookahead = token
      | .read => ∃ other' next', InStep table fuel expansion' next other' next' ∧
          next'.sink = next.sink ∧
          ask (fuel + 1) .read (.expansion other) context' =
            .ok (token, .expansion other') next' := by
  cases request with
  | peek =>
    obtain ⟨settled, settles, rfl, rfl⟩ := peek_expansion asked
    exact ⟨settled, rfl, inStep.settle settles, rfl⟩
  | read =>
    obtain ⟨settled, middle, advanced, settles, advances, rfl, rfl⟩ := read_expansion.mp asked
    obtain ⟨settled', later, other', next', settles', advances', same, sink, inStep⟩ :=
      (inStep.settle settles).advance advances
    refine ⟨advanced, rfl, other', next', inStep, sink, ?_⟩
    exact read_expansion.mpr ⟨settled', later, other', settles', advances', same.symm, rfl⟩

theorem token_of_rests (rests : expansion.rooted.Rests table) (same : context.table = table)
    (ran : askAll (fuel + 1) requests (.expansion expansion) context = .ok answers last) :
    ∀ answer ∈ answers.head?, answer.token = expansion.lookahead := by
  have settled {settled : Expansion TokenStream} {later : Context}
      (settles : expansion.settle (move fuel) fuel context = .ok settled later) :
      settled.lookahead = expansion.lookahead :=
    ((rests.quiet_settle fuel fuel).done same settles).2.2.lookahead
  cases requests with
  | nil =>
    cases ran
    exact nofun
  | cons request requests =>
    obtain ⟨token, _, _, tail, asked, _, rfl⟩ := askAll_cons.mp ran
    rintro _ ⟨⟩
    cases request with
    | peek =>
      obtain ⟨_, settles, rfl, _⟩ := peek_expansion asked
      exact settled settles
    | read =>
      obtain ⟨_, _, _, settles, _, rfl, _⟩ := read_expansion.mp asked
      exact settled settles

/-- **Many requests.** Made without the peeks, the reads get the same answers. -/
theorem askAll_inStep (inStep : InStep table fuel expansion context other context')
    (ran : askAll (fuel + 1) requests (.expansion expansion) context = .ok answers last) :
    ∃ last', askAll (fuel + 1) (requests.filter (· == .read)) (.expansion other) context' =
      .ok (answers.filter (·.request == .read)) last' := by
  induction requests generalizing expansion other context context' answers with
  | nil =>
    cases ran
    exact ⟨context', rfl⟩
  | cons request requests ih =>
    obtain ⟨token, _, next, tail, asked, later, rfl⟩ := askAll_cons.mp ran
    obtain ⟨expansion', rfl, after⟩ := ask_inStep inStep asked
    cases request with
    | peek =>
      obtain ⟨last', ran'⟩ := ih (.inr after.1) later
      exact ⟨last', ran'⟩
    | read =>
      obtain ⟨other', next', inStep, sink, asked'⟩ := after
      obtain ⟨last', ran'⟩ := ih inStep later
      refine ⟨last', askAll_cons.mpr ⟨token, _, next', _, asked', ran', ?_⟩⟩
      rw [sink]
      rfl

theorem isChain_askAll (inStep : InStep table fuel expansion context other context')
    (ran : askAll (fuel + 1) requests (.expansion expansion) context = .ok answers last) :
    answers.IsChain (fun answer next => answer.request = .peek → next.token = answer.token) ∧
      answers.map (·.request) = requests := by
  induction requests generalizing expansion other context context' answers with
  | nil =>
    cases ran
    exact ⟨.nil, rfl⟩
  | cons request requests ih =>
    obtain ⟨token, _, next, tail, asked, later, rfl⟩ := askAll_cons.mp ran
    obtain ⟨expansion', rfl, after⟩ := ask_inStep inStep asked
    cases request with
    | read =>
      obtain ⟨other', next', inStep, _⟩ := after
      obtain ⟨chain, same⟩ := ih inStep later
      refine ⟨List.isChain_cons.mpr ⟨fun _ _ peeked => (nomatch peeked), chain⟩, ?_⟩
      rw [List.map_cons, same]
    | peek =>
      obtain ⟨ahead, shown⟩ := after
      obtain ⟨chain, same⟩ := ih (.inr ahead) later
      obtain ⟨_, _, _, _, _, _, kin⟩ := ahead.settles
      refine ⟨List.isChain_cons.mpr ⟨fun answer first _ => ?_, chain⟩, ?_⟩
      · rw [← shown]
        exact token_of_rests ahead.rests kin.1 later answer first
      · rw [List.map_cons, same]

theorem token_eq_of_isChain {peeked taken : Answer} {between after : List Answer}
    (chain : (peeked :: (between ++ taken :: after)).IsChain
      fun answer next => answer.request = .peek → next.token = answer.token)
    (shown : peeked.request = .peek) (peeks : ∀ answer ∈ between, answer.request = .peek) :
    taken.token = peeked.token := by
  induction between generalizing peeked with
  | nil => exact (List.isChain_cons_cons.mp chain).1 shown
  | cons second between ih =>
    obtain ⟨here, peeks⟩ := List.forall_mem_cons.mp peeks
    obtain ⟨same, chain⟩ := List.isChain_cons_cons.mp chain
    exact (ih chain here peeks).trans (same shown)

theorem inStep_expand {queue : TokenQueue} {origin : Option Token}
    (ran : expand (fuel + 1) (.queue queue) origin context = .ok stream next) :
    ∃ expansion, stream = .expansion expansion ∧
      InStep context.table fuel expansion next expansion next := by
  have agree := Likeness.agree_exact (kinship_akin context.table) (fuel + 1)
  have origins : Likeness.exact.origins origin origin := rfl
  have follows : Engine.Follows (akin context.table) (expand (fuel + 1) (.queue queue) origin)
      (expand (fuel + 1) (.queue queue) origin) (Alike .exact) :=
    Playback.follows_expandWith (Likeness.lawful_exact context.table) agree origins
  have here := follows context context ⟨rfl, rfl, rfl⟩
  rw [ran] at here
  obtain ⟨_, _, same, kin, alike⟩ := here
  cases same
  obtain ⟨⟨token, sources⟩, _, _, wrapped⟩ := bind_ok_iff.mp ran
  cases wrapped
  refine ⟨_, rfl, .inl ?_⟩
  cases alike with
  | supplied supplies => exact supplies.elim
  | @expansion _ _ good level tame flat bottom sources =>
    exact ⟨good, tame, { level with sources := Likeness.sources_iff.mpr ⟨sources, flat, bottom⟩ },
      kin⟩

/-- **Peeking is transparent.** Let a list of tokens be expanded, and let the expansion be read and
peeked at in any order. If all requests are answered, the reads alone are answered in the same way,
with the same tokens and the same diagnostics by then; and each peek shows the token that the next
read takes. -/
theorem peeking_transparent (fuel : Nat) (tokens : List Token) (finish : Option Location)
    (origin : Option Token) (requests : List Request) {context last : Context}
    {answers : List Answer}
    (ran : (expand fuel (.queue (.ofList tokens finish)) origin >>= askAll fuel requests) context =
      .ok answers last) :
    (∃ last', (expand fuel (.queue (.ofList tokens finish)) origin >>=
        askAll fuel (requests.filter (· == .read))) context =
      .ok (answers.filter (·.request == .read)) last') ∧
    answers.map (·.request) = requests ∧
    ∀ before peeked between taken after,
      answers = before ++ peeked :: (between ++ taken :: after) →
      peeked.request = .peek → (∀ answer ∈ between, answer.request = .peek) →
      taken.request = .read → taken.token = peeked.token := by
  cases fuel with
  | zero => cases ran
  | succ fuel =>
    obtain ⟨_, next, expanded, ran⟩ := bind_ok_iff.mp ran
    obtain ⟨expansion, rfl, inStep⟩ := inStep_expand expanded
    obtain ⟨last', reads⟩ := askAll_inStep inStep ran
    obtain ⟨chain, same⟩ := isChain_askAll inStep ran
    refine ⟨⟨last', bind_ok_iff.mpr ⟨_, _, expanded, reads⟩⟩, same, ?_⟩
    rintro before peeked between taken after rfl shown peeks _
    exact token_eq_of_isChain (List.isChain_append.mp chain).2.1 shown peeks

/-- Two names of a macro on two lines, of which the second one begins a call that nothing closes. -/
def unclosedCall : List Token :=
  [plainName "ID", .onLine 9 .newline "\n", plainName "ID", .onLine 9 .punctuator "(",
    plainName "x"]

/-- The first peek skips the newline, and the second name is reported at the first peek at it. -/
theorem peeking_transparent_unclosedCall :
    let run := fun requests => (expand 12 (.queue (.ofList unclosedCall none)) none >>=
      askAll 12 requests) { table := MacroTable.initial.define identityMacro }
    ∃ answers last, run [.peek, .read, .peek, .peek, .read, .read, .peek] = .ok answers last ∧
      answers.map (fun answer => (answer.token.lexeme, answer.diagnostics.size)) =
        [("ID", 0), ("ID", 0), ("ID", 1), ("ID", 1), ("ID", 1), ("(", 1), ("x", 1)] ∧
      ∃ last', run [.read, .read, .read] = .ok (answers.filter (·.request == .read)) last' := by
  intro run
  obtain ⟨answers, last, ran, shown⟩ : ∃ answers last,
      run [.peek, .read, .peek, .peek, .read, .read, .peek] = .ok answers last ∧
        (answers.map (fun answer => (answer.token.lexeme, answer.diagnostics.size)) ==
          [("ID", 0), ("ID", 0), ("ID", 1), ("ID", 1), ("ID", 1), ("(", 1), ("x", 1)]) = true :=
    Engine.exists_ok_of_check (by decide +kernel)
  exact ⟨answers, last, ran, by simpa using shown,
    (peeking_transparent 12 unclosedCall none none _ ran).1⟩

end TokenStream

end Preproc
