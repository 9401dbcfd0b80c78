import Preproc.Proofs.Expansion.Reading
import Preproc.Proofs.Expansion.Supply
import Preproc.Proofs.Macro.Substitute

/-! # Calls as substitution

A call of a function-like macro without pastes is a simultaneous substitution, as long as nothing in
its body, in its arguments and after it names a macro: the body is played with the arguments in the
place of the parameters, what comes after the call follows, and nothing is reported.

Main statement: `call_substitutes`.
-/

namespace Preproc

open TokenStream (move AtLeast Delivers)
open Engine (Yields yields_iff)

variable {table : MacroTable}

/-! ## The arguments of an invocation -/

namespace Macro

variable {definition : Macro} {arguments : List (List Token)} {commas : List Token}

/-- The argument of a parameter. The variadic parameter has all remaining arguments with the commas
between them. -/
def argumentOf (definition : Macro) (arguments : List (List Token)) (commas : List Token)
    (number : Nat) : List Token :=
  if definition.isVariadic && number + 1 == definition.parameterCount then
    separated (arguments.drop number) (commas.drop number)
  else arguments.getD number []

theorem forall_mem_argumentOf {property : Token → Prop} (definition : Macro)
    (each : ∀ argument ∈ arguments, ∀ token ∈ argument, property token)
    (between : ∀ comma ∈ commas, property comma) (number : Nat) :
    ∀ token ∈ definition.argumentOf arguments commas number, property token := by
  unfold argumentOf
  split
  · exact forall_mem_separated (fun argument member => each argument (List.mem_of_mem_drop member))
      fun comma member => between comma (List.mem_of_mem_drop member)
  · rw [List.getD_eq_getElem?_getD]
    cases found : arguments[number]? with
    | none => exact List.forall_mem_nil _
    | some argument => exact each argument (List.mem_of_getElem? found)

theorem adjustArguments_of_parameters (nonzero : definition.parameterCount ≠ 0)
    (arguments : Arguments) : definition.adjustArguments arguments = arguments := by
  unfold adjustArguments
  split
  · simp [nonzero]
  · rfl

end Macro

namespace Playback

variable {playback : Playback TokenStream} {arguments : List (List Token)} {commas : List Token}

theorem argumentSpan_separated
    (taken : playback.arguments = ⟨separated arguments commas, spansFrom 0 arguments⟩)
    (counted : commas.length + 1 = arguments.length)
    (accepted : playback.entry.definition.acceptsCount arguments.length = true) {number : Nat}
    (inside : number < playback.entry.definition.parameterCount) :
    ∃ first last : Nat, playback.argumentSpan number = pure ((first : Int), (last : Int)) ∧
      first ≤ last ∧ last ≤ (separated arguments commas).length ∧
      ((separated arguments commas).take last).drop first =
        playback.entry.definition.argumentOf arguments commas number := by
  have here (found : number < arguments.length) :
      ∃ start : Nat, (spansFrom 0 arguments)[number]? =
          some ((start : Int), ((start + arguments[number].length : Nat) : Int)) ∧
        start + arguments[number].length ≤ (separated arguments commas).length ∧
        (separated arguments commas).drop start =
          separated (arguments.drop number) (commas.drop number) ∧
        ((separated arguments commas).take (start + arguments[number].length)).drop start =
          arguments[number] := by
    obtain ⟨start, spanned, inside, rest⟩ :=
      getElem?_spansFrom [] counted (List.getElem?_eq_getElem found)
    rw [List.nil_append] at inside rest
    obtain ⟨more, begins⟩ := separated_cons arguments[number] (arguments.drop (number + 1))
      (commas.drop number)
    rw [List.getElem_cons_drop] at begins
    have long := congrArg List.length (rest.trans begins)
    rw [List.length_drop, List.length_append] at long
    refine ⟨start, spanned, by omega, rest, ?_⟩
    rw [List.drop_take, rest, begins]
    simp
  have same : ((number : Int) + 1 == (playback.entry.definition.parameterCount : Int)) =
      (number + 1 == playback.entry.definition.parameterCount) := by
    rw [Bool.eq_iff_iff, beq_iff_eq, beq_iff_eq]
    omega
  unfold argumentSpan Macro.argumentOf
  dsimp only
  rw [taken, same]
  by_cases variadic : (playback.entry.definition.isVariadic &&
      number + 1 == playback.entry.definition.parameterCount) = true
  · rw [if_pos variadic, if_pos variadic]
    obtain ⟨_, last⟩ := getLast?_spansFrom [] counted
    rw [List.length_nil, List.nil_append] at last
    rw [last]
    by_cases found : number < arguments.length
    · obtain ⟨start, spanned, long, rest, _⟩ := here found
      rw [Index.get?_natCast, spanned]
      refine ⟨start, (separated arguments commas).length, rfl, by omega, Nat.le_refl _, ?_⟩
      rw [List.take_length, rest]
    · have missing : (spansFrom 0 arguments)[number]? = none := by
        rw [List.getElem?_eq_none_iff, length_spansFrom]
        omega
      rw [Index.get?_natCast, missing]
      refine ⟨_, _, rfl, Nat.le_refl _, Nat.le_refl _, ?_⟩
      rw [List.take_length, List.drop_length, List.drop_eq_nil_of_le (by omega), separated]
  · rw [if_neg variadic, if_neg variadic]
    have found : number < arguments.length :=
      Int.ofNat_lt.mp (Macro.lt_length_of_acceptsCount accepted
      (Int.ofNat_lt.mpr inside) (same ▸ Bool.eq_false_iff.mpr variadic))
    obtain ⟨start, spanned, long, _, argument⟩ := here found
    have there : ¬ ((spansFrom 0 arguments).length : Int) ≤ number := by
      rw [length_spansFrom]
      omega
    rw [if_neg there, item, Index.get?_natCast, spanned]
    refine ⟨start, _, rfl, by omega, long, ?_⟩
    rw [argument, List.getD_eq_getElem?_getD, List.getElem?_eq_getElem found]
    rfl

theorem argumentQueue_separated
    (taken : playback.arguments = ⟨separated arguments commas, spansFrom 0 arguments⟩)
    (counted : commas.length + 1 = arguments.length)
    (accepted : playback.entry.definition.acceptsCount arguments.length = true) {number : Nat}
    (inside : number < playback.entry.definition.parameterCount) (busy : List Macro.Entry) :
    playback.argumentQueue number busy =
        pure ⟨playback.entry.definition.argumentOf arguments commas number,
          .endOfInput playback.nameToken.location, busy⟩ ∧
      playback.argumentTokens number =
        pure (playback.entry.definition.argumentOf arguments commas number) := by
  obtain ⟨first, last, spanned, ordered, short, argument⟩ :=
    argumentSpan_separated taken counted accepted inside
  constructor
  · rw [argumentQueue, spanned, pure_bind, taken]
    have within : (0 : Int) ≤ first ∧ (first : Int) ≤ last ∧
        (last : Int) ≤ (separated arguments commas).length := by
      omega
    simp [TokenQueue.slice, within, argument, require]
  · rw [argumentTokens, spanned, pure_bind, taken, ← argument]
    simp

end Playback

/-- A function-like macro without pastes, built from a line in which nothing names a macro of the
table. -/
structure Macro.Template (definition : Macro) (table : MacroTable) : Prop where
  built : ∃ nameToken parameters endLocation,
    (build nameToken (some parameters) definition.body endLocation).1 = .ok definition
  inside : ∀ token ∈ definition.body, token.Inside
  plain : ∀ token ∈ definition.body, token.isPasteMark = false
  unnamed : ∀ token ∈ definition.body, table.entryFor? token = none

/-- Arguments with commas between them, in which nothing names a macro of the table. -/
structure MacroTable.Ignores (table : MacroTable) (arguments : List (List Token))
    (commas : List Token) : Prop where
  each : ∀ argument ∈ arguments, IsArgument argument
  counted : commas.length = arguments.length - 1
  separate : ∀ comma ∈ commas, comma.isPunctuator "," = true
  unnamed : ∀ argument ∈ arguments, ∀ token ∈ argument, table.entryFor? token = none

namespace MacroTable.Ignores

variable {arguments : List (List Token)} {commas : List Token} {property : Token → Prop}
  (ignores : table.Ignores arguments commas)

include ignores

theorem goesOn (definition : Macro) (number : Nat) :
    ∀ token ∈ definition.argumentOf arguments commas number, token.isEof = false :=
  definition.forall_mem_argumentOf
    (fun argument member token among => ((ignores.each argument member).inside token among).1)
    (fun comma member => (Token.inside_of_isPunctuator (ignores.separate comma member)).1) number

theorem unnamedOf (definition : Macro) (number : Nat) :
    ∀ token ∈ definition.argumentOf arguments commas number, table.entryFor? token = none :=
  definition.forall_mem_argumentOf ignores.unnamed
    (fun comma member => table.entryFor?_of_isPunctuator (ignores.separate comma member)) number

theorem exists_found {definition : Macro}
    (accepted : definition.acceptsCount arguments.length = true) :
    ∃ found, table.Ignores found commas ∧ commas.length + 1 = found.length ∧
      separated found commas = separated arguments commas ∧
      definition.argumentOf found commas = definition.argumentOf arguments commas ∧
      (definition.parameterCount ≠ 0 → definition.acceptsCount found.length = true) ∧
      definition.acceptsCount (definition.adjustArguments
        ⟨separated found commas, spansFrom 0 found⟩).spans.length = true := by
  have adjusted {found : List (List Token)} (nonzero : definition.parameterCount ≠ 0)
      (accepted : definition.acceptsCount found.length = true) :
      definition.acceptsCount (definition.adjustArguments
        ⟨separated found commas, spansFrom 0 found⟩).spans.length = true := by
    rw [definition.adjustArguments_of_parameters nonzero]
    simpa [length_spansFrom] using accepted
  have counting : definition.parameterCount = 0 → arguments.length = 0 := by
    intro zero
    have single : definition.isVariadic = false := by
      have empty : definition.parameters = [] := List.length_eq_zero_iff.mp zero
      simp [Macro.isVariadic, empty]
    simpa [Macro.acceptsCount, Macro.requiredArguments, single, zero] using accepted
  cases arguments with
  | nil =>
    have noCommas : commas = [] := List.length_eq_zero_iff.mp ignores.counted
    subst noCommas
    have one : definition.parameterCount ≠ 0 → definition.acceptsCount 1 = true := by
      intro nonzero
      unfold Macro.acceptsCount Macro.requiredArguments at accepted ⊢
      cases variadic : definition.isVariadic with
      | false =>
        simp [variadic] at accepted
        omega
      | true =>
        simp [variadic] at accepted ⊢
        omega
    refine ⟨[[]], ⟨by simpa using ⟨by simp, rfl⟩, rfl, by simp, by simp⟩, rfl, rfl, ?_, one, ?_⟩
    · funext number
      cases number <;> simp [Macro.argumentOf, separated]
    · by_cases zero : definition.parameterCount = 0
      · simpa [Macro.adjustArguments, spansFrom, zero] using accepted
      · exact adjusted zero (one zero)
  | cons argument arguments =>
    have nonzero : definition.parameterCount ≠ 0 := by
      intro zero
      cases counting zero
    have counted : commas.length + 1 = (argument :: arguments).length := by
      rw [ignores.counted]
      rfl
    exact ⟨_, ignores, counted, rfl, rfl, fun _ => accepted, adjusted nonzero accepted⟩

end MacroTable.Ignores

namespace Macro.Template

variable {definition : Macro} {arguments : List (List Token)} {commas : List Token}

section

variable (template : definition.Template table)

include template

theorem isFunctionLike : definition.isFunctionLike = true := by
  obtain ⟨nameToken, parameters, endLocation, built⟩ := template.built
  exact (parameters_of_build built).2

theorem isPaste : ∀ op ∈ definition.ops, op.isPaste = false := by
  obtain ⟨nameToken, parameters, endLocation, built⟩ := template.built
  rw [(ops_of_build_plain built template.plain).2]
  exact Op.isPaste_compileFrom true template.plain

theorem playable : definition.Playable := by
  obtain ⟨nameToken, parameters, endLocation, built⟩ := template.built
  exact (sound_of_build built fun op last => template.isPaste op
    (List.mem_of_getLast? last)).playable

theorem placed : ∀ op ∈ definition.ops, op.Placed
      (Op.nameIndex (definition.parameters.map (·.name)).idxOf?) definition.body := by
  obtain ⟨nameToken, parameters, endLocation, built⟩ := template.built
  rw [(ops_of_build built).2, (parameters_of_build built).1]
  exact Op.placed_compile _ _ _

theorem flatMap_ops (argument : Nat → List Token) :
    definition.ops.flatMap (Op.tokensFor definition.body argument) =
      Op.substitute definition.parameterNumber argument definition.body := by
  obtain ⟨nameToken, parameters, endLocation, built⟩ := template.built
  exact flatMap_ops_of_build built template.plain argument

theorem goesOn {argument : Nat → List Token}
    (given : ∀ number, ∀ token ∈ argument number, token.isEof = false) :
    ∀ op ∈ definition.ops, ∀ token ∈ Op.tokensFor definition.body argument op,
      token.isEof = false := by
  intro op member token among
  have whole := List.mem_flatMap.mpr ⟨op, member, among⟩
  rw [template.flatMap_ops] at whole
  exact Op.forall_mem_substitute _ (fun token member => (template.inside token member).1) given
    (fun _ _ => rfl) token whole

end

/-- **An invocation of a template is readable.** It opens the ops of its macro as the template says.
-/
theorem readable (playback : Playback TokenStream)
    (template : playback.entry.definition.Template table)
    (ignores : table.Ignores arguments commas) (counted : commas.length + 1 = arguments.length)
    (taken : playback.arguments = playback.entry.definition.adjustArguments
      ⟨separated arguments commas, spansFrom 0 arguments⟩)
    (accepted : playback.entry.definition.parameterCount ≠ 0 →
      playback.entry.definition.acceptsCount arguments.length = true) (markAt : Int → Token) :
    Playback.Readable table False (AtLeast 3) playback
      (Op.tokensFor playback.entry.definition.body
        (playback.entry.definition.argumentOf arguments commas)) markAt := by
  have unpasted : ¬ Op.Pasting playback.entry.definition.ops := by
    rintro ⟨op, member, paste⟩
    simp [template.isPaste op member] at paste
  have goesOn := ignores.goesOn playback.entry.definition
  have unnamed := ignores.unnamedOf playback.entry.definition
  have queues : Playback.Queues table False (AtLeast 3) := fun queue goesOn ends =>
    (TokenStream.delivers_queue goesOn ends).fewer fun _ => AtLeast.fuelled
  have argument {place number : Nat} (named : playback.entry.definition.body[place]?.bind
      (Op.nameIndex (playback.entry.definition.parameters.map (·.name)).idxOf?) = some number)
      (busy : List Macro.Entry) :
      playback.argumentQueue number busy =
          pure ⟨playback.entry.definition.argumentOf arguments commas number,
            .endOfInput playback.nameToken.location, busy⟩ ∧
        playback.argumentTokens number =
          pure (playback.entry.definition.argumentOf arguments commas number) := by
    have inside : number < playback.entry.definition.parameterCount := by
      have short := lt_parameterCount named
      rwa [List.length_map] at short
    have nonzero : playback.entry.definition.parameterCount ≠ 0 :=
      Nat.ne_of_gt (Nat.zero_lt_of_lt inside)
    rw [adjustArguments_of_parameters nonzero] at taken
    exact Playback.argumentQueue_separated taken counted (accepted nonzero) inside busy
  exact {
    allowed := unpasted
    queues
    playable := template.playable
    marks := fun index second member => absurd ⟨_, member, rfl⟩ unpasted
    solid := fun op member token among => ⟨template.goesOn goesOn op member token among,
      fun pastes => absurd pastes unpasted⟩
    opens := by
      intro move able op member _
      have placed := template.placed op member
      cases op with
      | span first last =>
        obtain ⟨start, stop, rfl, rfl, ordered, short, _⟩ := placed
        exact Playback.yields_openSpan queues playback (by omega) fun token among =>
          template.goesOn goesOn _ member token among
      | expanded index parameter =>
        obtain ⟨place, _, rfl, _, number, rfl, named⟩ := placed
        rw [Playback.openOp, (argument named _).1, pure_bind]
        obtain ⟨fuel, rfl⟩ := able.fuelled
        exact .pure (Expansion.delivers_opened_of_unnamed playback.origin
          ⟨playback.entry.definition.argumentOf arguments commas number,
            .endOfInput playback.nameToken.location, playback.around⟩ (goesOn number) rfl
          (unnamed number))
      | unexpanded index parameter =>
        obtain ⟨place, _, rfl, _, number, rfl, named⟩ := placed
        rw [Playback.openOp, (argument named _).1]
        exact .pure (queues ⟨playback.entry.definition.argumentOf arguments commas number,
          .endOfInput playback.nameToken.location, []⟩ (goesOn number) rfl)
      | stringized index parameter =>
        obtain ⟨place, _, rfl, _, ⟨hash, found, _⟩, number, rfl, named⟩ := placed
        have mark : Index.get? playback.entry.definition.body (place : Int) = some hash := by
          rw [Index.get?_natCast, found]
        rw [Playback.openOp, (argument named []).2, pure_bind, Op.tokensFor, mark]
        refine .bind (Playback.yields_bodyToken mark) ?_
        rintro _ rfl
        exact Playback.yields_synthesize queues _ _ (by decide)
      | paste index second => cases template.isPaste _ member
      | line first second => exact placed.elim fun _ covers => covers.elim fun _ never => never.elim
      | file first second => exact placed.elim fun _ covers => covers.elim fun _ never =>
        never.elim }

end Macro.Template

/-! ## The expansion -/

section Call

open Expansion

variable {name opening closing : Token} {entry : Macro.Entry} {arguments : List (List Token)}
  {commas rest : List Token}

/-- What the call of a template stands for. -/
def Macro.replacement (definition : Macro) (arguments : List (List Token)) (commas : List Token) :
    List Token :=
  Op.substitute definition.parameterNumber (definition.argumentOf arguments commas) definition.body

theorem Playback.reading_of_unpasted {tokensOf : Op → List Token} {markAt : Int → Token}
    {ops : List Op} (plain : ∀ op ∈ ops, op.isPaste = false) (current : List Token) :
    reading tokensOf markAt current ops = current ++ ops.flatMap tokensOf := by
  induction ops generalizing current with
  | nil => simp [reading]
  | cons op ops ih =>
    obtain ⟨operand, plain⟩ := List.forall_mem_cons.mp plain
    rw [reading_operand _ _ operand, ih plain, List.flatMap_cons]

theorem Expansion.hands_of_readable {playback : Playback TokenStream}
    {movers : TokenStream.Mover → Prop}
    {tokensOf : Op → List Token} {markAt : Int → Token} {tokens : List Token}
    (readable : Playback.Readable table False movers { playback with around := [] } tokensOf markAt)
    (opened : playback.closed = false) (fresh : playback.operands = [])
    (able : ∀ fuel, 3 ≤ fuel → movers (move fuel))
    (reads : Playback.reading tokensOf markAt [] playback.entry.definition.ops = tokens)
    (unnamed : ∀ token ∈ tokens ++ beforeEnd rest, table.entryFor? token = none) (finish : Location)
    (fuel : Nat) (expansion : Expansion TokenStream) :
    Yields table False (begin (move (fuel + 4)) expansion playback []
      [.queue ⟨rest, .endOfInput finish, []⟩])
        (Hands table False 4 (tokens ++ beforeEnd rest)) := by
  refine .bind (Playback.yields_prime (able (fuel + 4) (by omega)) [] readable opened fresh) ?_
  rintro _ ⟨found, rfl, stands⟩
  rw [reads] at stands
  have delivers : Delivers table False (AtLeast 4) _ _ :=
    (Playback.delivers (readable.movedTo found) opened stands).fewer fun move atLeast => by
      obtain ⟨more, long, rfl⟩ := atLeast
      obtain ⟨more, rfl⟩ := Nat.exists_eq_add_of_le' (Nat.le_trans (by omega : 1 ≤ 4) long)
      exact ⟨more, able _ (by omega), rfl⟩
  have below : TokenStream.Supplies table False (AtLeast 4) (beforeEnd rest)
      [.queue ⟨rest, .endOfInput finish, []⟩] :=
    (TokenStream.supplies_queue rest rfl []).fewer fun _ => AtLeast.fuelled
  refine .bind (hands_of_supplies (below.push (List.cons_ne_nil _ _) delivers) unnamed
    ⟨fuel + 4, by omega, rfl⟩) ?_
  exact fun found hands => .pure (hands _ rfl rfl)

theorem Expansion.hands_begin (template : entry.definition.Template table)
    (ignores : table.Ignores arguments commas) (counted : commas.length + 1 = arguments.length)
    {taken : Arguments} (adjusted : entry.definition.adjustArguments
      ⟨separated arguments commas, spansFrom 0 arguments⟩ = taken)
    (accepted : entry.definition.parameterCount ≠ 0 →
      entry.definition.acceptsCount arguments.length = true)
    (unnamed : ∀ token ∈ entry.definition.replacement arguments commas ++ beforeEnd rest,
      table.entryFor? token = none) (name : Token) (finish : Location) (fuel : Nat)
    (expansion : Expansion TokenStream) :
    Yields table False (begin (move (fuel + 4)) expansion
      { entry, nameToken := name, origin := some name, arguments := taken, outermost := true,
        lookahead := .endOfInput name.location } [] [.queue ⟨rest, .endOfInput finish, []⟩])
      (Hands table False 4 (entry.definition.replacement arguments commas ++ beforeEnd rest)) := by
  have readable := Macro.Template.readable
    { entry, nameToken := name, origin := some name, arguments := taken, outermost := true,
      lookahead := .endOfInput name.location } template ignores counted adjusted.symm accepted
    fun _ => name
  refine hands_of_readable readable rfl rfl (fun fuel long => ⟨fuel, long, rfl⟩) ?_ unnamed finish
    fuel expansion
  rw [Playback.reading_of_unpasted template.isPaste, List.nil_append, template.flatMap_ops]
  rfl

theorem Expansion.settle_call (named : table.entryFor? name = some entry)
    (template : entry.definition.Template table) (opens : opening.isPunctuator "(" = true)
    (closes : closing.isPunctuator ")" = true) (ignores : table.Ignores arguments commas)
    (accepted : entry.definition.acceptsCount arguments.length = true)
    (unnamed : ∀ token ∈ entry.definition.replacement arguments commas ++ beforeEnd rest,
      table.entryFor? token = none) (finish : Location) (fuel : Nat)
    (long : (separated arguments commas).length < fuel) {context : Context}
    (same : context.table = table) :
    ∃ settled next, (opened none (.ofList
        (name :: opening :: (separated arguments commas ++ closing :: rest)) (some finish))).settle
        (move (fuel + 4)) (fuel + 4) context = .ok settled next ∧
      next.sink = context.sink ∧ next.table = table ∧
      Hands table False 4 (entry.definition.replacement arguments commas ++ beforeEnd rest)
        settled := by
  obtain ⟨found, ignores, counted, whole, argumentOf, sized, count⟩ := ignores.exists_found accepted
  have replaced : entry.definition.replacement found commas =
      entry.definition.replacement arguments commas := by
    rw [Macro.replacement, argumentOf, Macro.replacement]
  rw [← whole] at long ⊢
  rw [← replaced] at unnamed ⊢
  obtain ⟨begun, middle, ran, kept, quiet, hands⟩ := yields_iff.mp (hands_begin template ignores
    counted rfl sized unnamed name finish fuel _) context same
  have attempts := attempt_opened named (opening ::
    (separated found commas ++ closing :: rest)) finish (move (fuel + 4)) (fuel + 3) same
  rw [if_pos template.isFunctionLike, attemptCall_separated
    (fuel + 3) opens closes ignores.each counted ignores.separate
    (Nat.lt_add_right 3 long) rfl count rfl] at attempts
  obtain ⟨next, settles, quiet', kept'⟩ := settle_of_again
    (attempts.trans (Engine.bind_ok_iff.mpr ⟨begun, middle, ran, rfl⟩)) kept hands
  exact ⟨begun, next, settles, quiet'.trans (by simpa using quiet), kept', hands⟩

/-- **Calls are simultaneous substitution.** Let a function-like macro be built from a line without
pastes, and let it be called with arguments that it accepts, where nothing in its body, in the
arguments and after the call names a macro. Expanding the call and what comes after it gives the
body with each parameter replaced by its argument as it is, and each `#` and the parameter after it
by the string literal of the argument, and then what comes after the call up to its first end.
Nothing is reported. -/
theorem call_substitutes (named : table.entryFor? name = some entry)
    (template : entry.definition.Template table) (opens : opening.isPunctuator "(" = true)
    (closes : closing.isPunctuator ")" = true) (ignores : table.Ignores arguments commas)
    (accepted : entry.definition.acceptsCount arguments.length = true)
    (after : ∀ token ∈ rest, table.entryFor? token = none) :
    ∃ enough, ∀ fuel, enough ≤ fuel → ∀ (finish : Location) (context : Context),
      context.table = table → ∃ next,
        expandTokens fuel (name :: opening :: (separated arguments commas ++ closing :: rest))
            finish context =
          .ok (entry.definition.replacement arguments commas ++ beforeEnd rest) next ∧
        next.sink = context.sink ∧ next.table = table := by
  have unnamed : ∀ token ∈ entry.definition.replacement arguments commas ++ beforeEnd rest,
      table.entryFor? token = none := by
    refine List.forall_mem_append.mpr ⟨?_, fun token member => ?_⟩
    · exact Op.forall_mem_substitute _ template.unnamed (ignores.unnamedOf entry.definition)
        fun _ _ => rfl
    · exact after token (List.takeWhile_prefix _ |>.subset member)
  generalize replaced : entry.definition.replacement arguments commas ++ beforeEnd rest = out at *
  refine ⟨out.length + (separated arguments commas).length + 6, ?_⟩
  intro fuel enough finish context same
  obtain ⟨fuel, rfl⟩ := Nat.exists_eq_add_of_le' (show 5 ≤ fuel by omega)
  obtain ⟨settled, middle, settles, quiet, kept, hands⟩ := settle_call named template opens closes
    ignores accepted (replaced.symm ▸ unnamed) finish fuel (by omega) same
  rw [replaced] at hands
  obtain ⟨last, next, ran, quiet', kept⟩ := drain_of_settle settles kept hands (by omega) (by omega)
    (show out.length ≤ fuel + 4 by omega)
  refine ⟨next, ?_, quiet'.trans quiet, kept⟩
  rw [expandTokens_succ]
  exact Engine.bind_ok_iff.mpr ⟨_, _, ran, rfl⟩

/-- The variadic macro `SWAP` of `x` and `y`, with the body `y # x __VA_ARGS__ x`. -/
def swapMacro : Macro :=
  { flavor := .functionLike, name := "SWAP",
    body := [plainName "y", .onLine 9 .punctuator "#", plainName "x", plainName "__VA_ARGS__",
      plainName "x"],
    ops := [.expanded 0 1, .stringized 1 0, .expanded 3 2, .expanded 4 0],
    parameters := [⟨"x", .unknown, false⟩, ⟨"y", .unknown, false⟩, ⟨"__VA_ARGS__", .unknown, true⟩],
    nameToken := some (plainName "SWAP"), endLocation := .unknown }

theorem template_swapMacro : swapMacro.Template (MacroTable.initial.define swapMacro) where
  built := ⟨plainName "SWAP", swapMacro.parameters, .unknown, rfl⟩
  inside := by decide +kernel
  plain := by decide +kernel
  unnamed := by decide +kernel

/-- The argument `y` is not substituted again. -/
theorem call_substitutes_swap : ∃ enough, ∀ fuel, enough ≤ fuel →
    ∃ next, expandTokens fuel (plainName "SWAP" :: .onLine 9 .punctuator "(" ::
      (separated [[plainName "y"], [], [plainName "c"], [plainName "d"]]
        (List.replicate 3 (.onLine 9 .punctuator ",")) ++
        .onLine 9 .punctuator ")" :: [plainName "e"])) .unknown
      { table := MacroTable.initial.define swapMacro } =
      .ok [.onLine 9 .string "\"y\"", plainName "c", .onLine 9 .punctuator ",", plainName "d",
        plainName "y", plainName "e"] next ∧ next.sink = {} := by
  have ignores : (MacroTable.initial.define swapMacro).Ignores
      [[plainName "y"], [], [plainName "c"], [plainName "d"]]
      (List.replicate 3 (.onLine 9 .punctuator ",")) := by
    constructor
    · decide +kernel
    · decide +kernel
    · decide +kernel
    · decide +kernel
  have named : (MacroTable.initial.define swapMacro).entryFor? (plainName "SWAP") =
      some ⟨2, swapMacro⟩ := by
    decide +kernel
  have after : ∀ token ∈ [plainName "e"],
      (MacroTable.initial.define swapMacro).entryFor? token = none := by
    decide +kernel
  obtain ⟨enough, gives⟩ := @call_substitutes _ _ (.onLine 9 .punctuator "(")
    (.onLine 9 .punctuator ")") _ _ _ _ named template_swapMacro rfl rfl ignores (by decide +kernel)
    after
  refine ⟨enough, fun fuel bounds => ?_⟩
  obtain ⟨next, ran, quiet, _⟩ := gives fuel bounds .unknown
    { table := MacroTable.initial.define swapMacro } rfl
  exact ⟨next, ran, quiet⟩

/-- An end among the tokens after a call ends the expansion: what comes after it is lost. -/
theorem call_loses_after_end :
    ExpandsOnce (MacroTable.initial.define identityMacro)
      (identityCall [plainName "a"] ++ [.onLine 9 .eof "", plainName "b"]) [plainName "a"] :=
  expandsOnce_of_check 9 (by decide +kernel)

end Call

end Preproc
