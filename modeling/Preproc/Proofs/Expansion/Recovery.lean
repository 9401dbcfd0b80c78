import Preproc.Proofs.Expansion.Supply

/-! # Calls that fail

A call that is not closed is given back: its name stays, and the parenthesis and the tokens that
were taken are put in front of what stopped the call. A call whose arguments do not fit vanishes,
and what comes after it follows. Either way one error is reported, at the name.

Main statement: `failed_call_recovers`.
-/

namespace Preproc

open TokenStream (move Mover AtLeast)
open Engine (Yields yields_iff)

variable {table : MacroTable}

/-- From every context with the table, an action succeeds, keeps the table, reports one notice at a
place, and gives a value as stated. -/
def Engine.Reports {α : Type} (table : MacroTable) (place : Location) (notice : Notice)
    (action : Engine α) (condition : α → Prop) : Prop :=
  ∀ context, context.table = table → ∃ value next, action context = .ok value next ∧
    next.table = table ∧ next.sink = context.sink.report place notice ∧ condition value

open Engine (Reports)

section Reports

variable {α β : Type} {place : Location} {notice : Notice} {action : Engine α}
  {condition : α → Prop} {next : α → Engine β} {wanted : β → Prop}

theorem Engine.Yields.reports (first : Yields table False action condition)
    (rest : ∀ value, condition value → Reports table place notice (next value) wanted) :
    Reports table place notice (action >>= next) wanted := by
  intro context same
  obtain ⟨value, middle, ran, kept, quiet, holds⟩ := yields_iff.mp first context same
  obtain ⟨result, last, goesOn, kept', told, holds'⟩ := rest value holds middle kept
  have quiet : middle.sink = context.sink := by simpa using quiet
  exact ⟨result, last, Engine.bind_ok_iff.mpr ⟨value, middle, ran, goesOn⟩, kept', quiet ▸ told,
    holds'⟩

theorem Engine.Reports.bind (first : Reports table place notice action condition)
    (rest : ∀ value, condition value → Yields table False (next value) wanted) :
    Reports table place notice (action >>= next) wanted := by
  intro context same
  obtain ⟨value, middle, ran, kept, told, holds⟩ := first context same
  obtain ⟨result, last, goesOn, kept', quiet, holds'⟩ :=
    yields_iff.mp (rest value holds) middle kept
  have quiet : last.sink = middle.sink := by simpa using quiet
  exact ⟨result, last, Engine.bind_ok_iff.mpr ⟨value, middle, ran, goesOn⟩, kept', quiet.trans told,
    holds'⟩

theorem Engine.reports_report (place : Location) (notice : Notice) :
    Reports table place notice (Engine.report place notice) fun _ => True :=
  fun _ same => ⟨(), _, rfl, same, rfl, trivial⟩

end Reports

variable {bound : Nat}

namespace Expansion

variable {place : Location} {notice : Notice} {tokens out : List Token} {fuel : Nat}

theorem reports_drain_append {pre : List Token} (goesOn : ∀ token ∈ pre, token.isEof = false)
    (unnamed : ∀ token ∈ pre, table.entryFor? token = none) {finish : Location}
    (drains : Reports table place notice
      ((TokenStream.expansion (opened none (.ofList tokens (some finish)))).drain (fuel + 3) bound)
      (·.1 = out)) :
    Reports table place notice
      ((TokenStream.expansion (opened none (.ofList (pre ++ tokens) (some finish)))).drain
        (fuel + 3) (bound + pre.length)) (·.1 = pre ++ out) := by
  induction pre with
  | nil => exact drains
  | cons token pre ih =>
    obtain ⟨here, goesOn⟩ := List.forall_mem_cons.mp goesOn
    obtain ⟨plain, unnamed⟩ := List.forall_mem_cons.mp unnamed
    have rests : (opened none (.ofList (token :: (pre ++ tokens)) (some finish))).Rests table :=
      rests_of_unnamed plain
    have reads : Yields table False (TokenStream.readWith (move (fuel + 3))
        (.expansion (opened none (.ofList (token :: (pre ++ tokens)) (some finish)))))
        (· = (token, .expansion (opened none (.ofList (pre ++ tokens) (some finish))))) := by
      refine .bind (rests.settle (fuel + 1) fuel).image ?_
      rintro _ ⟨_, rfl, rfl⟩
      have advances : Yields table False
          ((opened none (.ofList (token :: (pre ++ tokens)) (some finish))).advance
            (move (fuel + 2)))
          (· = opened none (.ofList (pre ++ tokens) (some finish))) := by
        unfold Expansion.advance
        rw [if_neg (by simp [opened, TokenQueue.head, TokenQueue.ofList, here])]
        exact .pure rfl
      refine .bind advances.image ?_
      rintro _ ⟨_, rfl, rfl⟩
      exact .pure rfl
    refine reads.reports ?_
    rintro _ rfl
    dsimp only
    rw [if_neg (by simp [here])]
    refine (ih goesOn unnamed).bind ?_
    rintro ⟨rest, last⟩ rfl
    exact .pure rfl

theorem reports_settle {expansion : Expansion TokenStream} {enough : Nat}
    (attempts : Reports table place notice
      (expansion.attempt (move (fuel + 1)) (bound + 2)) fun attempt =>
        ∃ handing, (attempt = .stays handing ∨ attempt = .again handing) ∧
          Hands table False enough tokens handing) :
    Reports table place notice (expansion.settle (move (fuel + 1)) (bound + 3))
      (Hands table False enough tokens) := by
  refine attempts.bind ?_
  rintro _ ⟨handing, rfl | rfl, hands⟩
  · exact .pure hands
  · apply (hands.rests.settle fuel bound).imp
    rintro _ rfl
    exact hands

theorem reports_expandTokens {pre : List Token} (goesOn : ∀ token ∈ pre, token.isEof = false)
    (unnamed : ∀ token ∈ pre, table.entryFor? token = none) {enough : Nat} {finish : Location}
    (attempts : Reports table place notice
      ((opened none (.ofList tokens (some finish))).attempt (move (fuel + 3)) (fuel + 2))
        fun attempt => ∃ handing, (attempt = .stays handing ∨ attempt = .again handing) ∧
          Hands table False enough out handing)
    (long : 2 ≤ enough) (able : enough ≤ fuel + 3) (bounds : pre.length + out.length ≤ fuel + 3) :
    Reports table place notice (expandTokens (fuel + 4) (pre ++ tokens) finish)
      (· = pre ++ out) := by
  obtain ⟨bound, total⟩ := Nat.exists_eq_add_of_le bounds
  have drains : Reports table place notice
      ((TokenStream.expansion (opened none (.ofList tokens (some finish)))).drain (fuel + 4)
        (out.length + bound + 1)) (·.1 = out) := by
    intro context same
    obtain ⟨settled, middle, settles, kept, told, hands⟩ := reports_settle attempts context same
    obtain ⟨last, next, ran, quiet, kept⟩ :=
      drain_of_settle settles kept hands long able (Nat.le_add_right out.length bound)
    exact ⟨_, next, ran, kept, quiet.trans told, rfl⟩
  have whole := reports_drain_append goesOn unnamed drains
  rw [show out.length + bound + 1 + pre.length = fuel + 4 by omega] at whole
  refine whole.bind ?_
  rintro ⟨drained, last⟩ rfl
  exact .pure rfl

end Expansion

/-- How many arguments a call gives a macro. Between empty parentheses there is none for a macro
without parameters, and an empty one for any other. -/
def Macro.countGiven (definition : Macro) (inside : List Token) : Nat :=
  if definition.parameterCount = 0 ∧ withoutNewlines inside = [] then 0
  else (outerCommas 0 inside).length + 1

theorem outerCommas_withoutNewlines (depth : Nat) (tokens : List Token) :
    outerCommas depth (withoutNewlines tokens) = outerCommas depth tokens := by
  induction tokens generalizing depth with
  | nil => rfl
  | cons token tokens ih =>
    by_cases newline : token.kind = .newline
    · have other (text : String) : token.isPunctuator text = false := by
        simp [Token.isPunctuator, newline]
      simp [withoutNewlines, newline, outerCommas, depthPast, other, ← ih]
    · simp [withoutNewlines, newline, outerCommas, ← ih]

theorem Macro.length_adjustArguments (definition : Macro) {inside : List Token}
    (balanced : depthAfter 0 inside = some 0) :
    (definition.adjustArguments ⟨withoutNewlines inside,
      spansFrom 0 (argumentsIn 0 (withoutNewlines inside))⟩).spans.length =
        definition.countGiven inside := by
  rw [← depthAfter_withoutNewlines] at balanced
  obtain ⟨first, others, split, _, _, counted, joined⟩ := argumentsIn_spec balanced
  rw [Macro.countGiven, ← outerCommas_withoutNewlines, ← counted, split]
  cases others with
  | nil =>
    have whole : first = withoutNewlines inside := joined
    by_cases bare : definition.parameterCount = 0 ∧ first = []
    · simp [adjustArguments, spansFrom, ← whole, bare]
    · have long : ¬ (definition.parameterCount = 0 ∧ 0 = (first.length : Int)) := by
        simpa [eq_comm] using bare
      rw [← whole, if_neg bare, adjustArguments]
      simp [spansFrom, long]
  | cons second others =>
    have nonempty : withoutNewlines inside ≠ [] := by
      intro empty
      simp [empty, outerCommas] at counted
    simp [adjustArguments, spansFrom, length_spansFrom, nonempty]

section Call

open Expansion

variable {name opening : Token} {entry : Macro.Entry} {pre newlines inside rest : List Token}

/-- A call that is not closed is reported, and its tokens are handed out as they are. -/
theorem Expansion.reports_unclosed (named : table.entryFor? name = some entry)
    (function : entry.definition.isFunctionLike = true)
    (blank : ∀ token ∈ newlines, token.kind = .newline) (opens : opening.isPunctuator "(" = true)
    (goOn : ∀ token ∈ inside, token.GoesOn) (isOpen : (depthAfter 0 inside).isSome)
    (stops : ∀ token ∈ rest.head?, token.isEof = true ∨ token.kind = .directive)
    (unnamed : ∀ token ∈ inside ++ rest, table.entryFor? token = none) (finish : Location)
    (fuel : Nat) {bound : Nat} (short : newlines.length < bound) (enough : inside.length < bound) :
    Reports table name.location (.unterminatedCall entry.definition.name)
      ((opened none (.ofList (name :: (newlines ++ opening :: (inside ++ rest)))
        (some finish))).attempt (move (fuel + 1)) bound) fun attempt =>
      ∃ handing, (attempt = .stays handing ∨ attempt = .again handing) ∧ Hands table False 2
        (name :: opening :: (withoutNewlines inside ++ beforeEnd rest)) handing := by
  intro context same
  rw [attempt_opened named _ _ _ _ same, if_pos function,
    attemptCall_unclosed blank opens fuel goOn isOpen rfl stops short enough rfl]
  have goesOn : ∀ token ∈ opening :: withoutNewlines inside, token.isEof = false :=
    List.forall_mem_cons.mpr ⟨(Token.inside_of_isPunctuator opens).1, fun token member =>
      (goOn token (List.mem_of_mem_filter member)).1⟩
  have below : TokenStream.Supplies table False (AtLeast 2) (beforeEnd rest)
      [.queue ⟨rest, .endOfInput finish, []⟩] :=
    (TokenStream.supplies_queue rest rfl []).fewer fun _ => AtLeast.fuelled
  have above := (@TokenStream.delivers_queue table False
    (.ofList (opening :: withoutNewlines inside) none) goesOn rfl).fewer
      fun move (able : AtLeast 2 move) => able.fuelled
  obtain ⟨isName, -⟩ := MacroTable.entryFor?_eq_some named
  have nameGoesOn : name.isEof = false := by
    simp only [Token.isIdentifier, beq_iff_eq] at isName
    simp [Token.isEof, isName]
  have later : ∀ token ∈ (opening :: withoutNewlines inside) ++ beforeEnd rest,
      table.entryFor? token = none := by
    rw [List.forall_mem_append] at unnamed ⊢
    refine ⟨List.forall_mem_cons.mpr ⟨table.entryFor?_of_isPunctuator opens, ?_⟩, ?_⟩
    · exact fun token member => unnamed.1 token (List.mem_of_mem_filter member)
    · exact fun token member => unnamed.2 token ((List.takeWhile_prefix _).subset member)
  refine ((Engine.reports_report _ _).bind fun _ _ => .pure ⟨_, .inl rfl, ?_⟩) context same
  exact ⟨.passed (by simp), ⟨rfl, nameGoesOn⟩, fun _ => below.push (List.cons_ne_nil _ _) above,
    later⟩

theorem Expansion.reports_misfit (named : table.entryFor? name = some entry)
    (function : entry.definition.isFunctionLike = true)
    (blank : ∀ token ∈ newlines, token.kind = .newline) (opens : opening.isPunctuator "(" = true)
    (goOn : ∀ token ∈ inside, token.GoesOn) (balanced : depthAfter 0 inside = some 0)
    {closing : Token} (closes : closing.isPunctuator ")" = true)
    (refused : entry.definition.acceptsCount (entry.definition.countGiven inside) = false)
    (unnamed : ∀ token ∈ rest, table.entryFor? token = none) (finish : Location) (fuel : Nat)
    (short : newlines.length < bound) (enough : inside.length < bound) :
    Reports table name.location (.wrongArgumentCount entry.definition.name
        (toString entry.definition.requiredArguments)
        (toString (entry.definition.countGiven inside)))
      ((opened none (.ofList (name :: (newlines ++ opening :: (inside ++ closing :: rest)))
        (some finish))).attempt (move (fuel + 2)) bound) fun attempt =>
      ∃ handing, (attempt = .stays handing ∨ attempt = .again handing) ∧
        Hands table False 2 (beforeEnd rest) handing := by
  intro context same
  have counted := entry.definition.length_adjustArguments balanced
  rw [attempt_opened named _ _ _ _ same, if_pos function,
    attemptCall_closed blank opens (fuel + 1) goOn balanced closes short enough rfl rfl, counted,
    if_neg (by simp [refused])]
  have below : TokenStream.Supplies table False (AtLeast 2) (beforeEnd rest)
      [.queue ⟨rest, .endOfInput finish, []⟩] :=
    (TokenStream.supplies_queue rest rfl []).fewer fun _ => AtLeast.fuelled
  have reads := hands_of_supplies below (fun token member => unnamed token
    ((List.takeWhile_prefix _).subset member)) ⟨fuel + 2, Nat.le_add_left 2 fuel, rfl⟩
  refine ((Engine.reports_report _ _).bind fun _ _ => .bind reads ?_) context same
  exact fun found hands => .pure ⟨_, .inr rfl, hands _ rfl rfl⟩

/-- **Calls that fail recover.** Let the name of a function-like macro be followed by a parenthesis,
and let nothing else name a macro. If the call is not closed before the end or before a directive,
expansion gives all tokens back, except for newlines after the name and inside the call, and reports
that the call is not terminated. If the call is closed and its arguments do not fit the macro, the
call vanishes and the error has the required and the given count. In both cases the error is at the
name and is the only one, and an end among the tokens that follow ends the expansion. -/
theorem failed_call_recovers (named : table.entryFor? name = some entry)
    (function : entry.definition.isFunctionLike = true)
    (before : ∀ token ∈ pre, token.isEof = false)
    (blank : ∀ token ∈ newlines, token.kind = .newline) (opens : opening.isPunctuator "(" = true)
    (goOn : ∀ token ∈ inside, token.GoesOn)
    (unnamed : ∀ token ∈ pre ++ inside ++ rest, table.entryFor? token = none) :
    ∃ enough, ∀ fuel, enough ≤ fuel → ∀ finish,
      ((depthAfter 0 inside).isSome →
        (∀ token ∈ rest.head?, token.isEof = true ∨ token.kind = .directive) →
        Reports table name.location (.unterminatedCall entry.definition.name)
          (expandTokens fuel (pre ++ name :: (newlines ++ opening :: (inside ++ rest))) finish)
          (· = pre ++ name :: opening :: (withoutNewlines inside ++ beforeEnd rest))) ∧
      ∀ closing, depthAfter 0 inside = some 0 → closing.isPunctuator ")" = true →
        entry.definition.acceptsCount (entry.definition.countGiven inside) = false →
        Reports table name.location (.wrongArgumentCount entry.definition.name
            (toString entry.definition.requiredArguments)
            (toString (entry.definition.countGiven inside)))
          (expandTokens fuel
            (pre ++ name :: (newlines ++ opening :: (inside ++ closing :: rest))) finish)
          (· = pre ++ beforeEnd rest) := by
  obtain ⟨⟨early, inner⟩, late⟩ := (List.forall_mem_append.mp unnamed).imp_left
    List.forall_mem_append.mp
  have shorter : (beforeEnd rest).length ≤ rest.length := (List.takeWhile_prefix _).length_le
  have fewer : (withoutNewlines inside).length ≤ inside.length := List.length_filter_le _ _
  refine ⟨pre.length + newlines.length + inside.length + rest.length + 5, ?_⟩
  intro fuel enough finish
  obtain ⟨fuel, rfl⟩ := Nat.exists_eq_add_of_le' (show 4 ≤ fuel by omega)
  refine ⟨fun isOpen stops => ?_, fun closing balanced closes refused => ?_⟩
  · refine reports_expandTokens before early (reports_unclosed named function blank opens goOn
      isOpen
      stops (List.forall_mem_append.mpr ⟨inner, late⟩) finish _ (by omega) (by omega))
        (Nat.le_refl 2)
      (by omega) ?_
    simp only [List.length_cons, List.length_append]
    omega
  · exact reports_expandTokens before early (reports_misfit named function blank opens goOn balanced
      closes refused late finish _ (by omega) (by omega)) (Nat.le_refl 2) (by omega) (by omega)

/-- A call that a directive stops inside inner parentheses, and a call with one argument too many.
-/
theorem failed_call_recovers_identity : ∃ enough, ∀ fuel, enough ≤ fuel → ∀ finish,
    Reports (MacroTable.initial.define identityMacro) (plainName "ID").location
      (.unterminatedCall "ID")
      (expandTokens fuel [plainName "a", plainName "ID", .onLine 9 .newline "",
        .onLine 10 .punctuator "(",
        plainName "b", .onLine 10 .newline "", .onLine 11 .punctuator "(",
          .onLine 12 .directive "#line",
        plainName "c"] finish)
      (· = [plainName "a", plainName "ID", .onLine 10 .punctuator "(", plainName "b",
        .onLine 11 .punctuator "(", .onLine 12 .directive "#line", plainName "c"]) ∧
    Reports (MacroTable.initial.define identityMacro) (plainName "ID").location
      (.wrongArgumentCount "ID" "1" "2") (expandTokens fuel ([plainName "a"] ++ identityCall
        [plainName "b", .onLine 9 .punctuator ","] ++
        [plainName "c"]) finish)
      (· = [plainName "a", plainName "c"]) := by
  have named : (MacroTable.initial.define identityMacro).entryFor? (plainName "ID") =
      some ⟨2, identityMacro⟩ := by
    decide +kernel
  have unnamed : ∀ token ∈ [plainName "a", plainName "b", .onLine 10 .newline "",
      .onLine 11 .punctuator "(", .onLine 9 .punctuator ",", .onLine 12 .directive "#line",
      plainName "c"], (MacroTable.initial.define identityMacro).entryFor? token = none := by
    decide +kernel
  obtain ⟨enough, unclosed⟩ := @failed_call_recovers _ _ (.onLine 10 .punctuator "(") _
    [plainName "a"]
    [.onLine 9 .newline ""] [plainName "b", .onLine 10 .newline "", .onLine 11 .punctuator "("]
    [.onLine 12 .directive "#line", plainName "c"] named rfl (by decide +kernel)
      (by decide +kernel) rfl
    (by decide +kernel) fun token member => unnamed token (by simp_all; tauto)
  obtain ⟨enough', misfit⟩ := @failed_call_recovers _ _ (.onLine 9 .punctuator "(") _
    [plainName "a"]
    [] [plainName "b", .onLine 9 .punctuator ","] [plainName "c"] named rfl (by decide +kernel)
    (by decide +kernel) rfl (by decide +kernel)
    fun token member => unnamed token (by simp_all; tauto)
  refine ⟨enough + enough', fun fuel more finish => ?_⟩
  exact ⟨(unclosed fuel (by omega) finish).1 (by decide +kernel) (by decide +kernel),
    (misfit fuel (by omega) finish).2 (.onLine 9 .punctuator ")") (by decide +kernel) rfl
      (by decide +kernel)⟩

/-- An end inside a call that is not closed ends the expansion: what comes after it is lost. -/
theorem failed_call_loses_after_end :
    ExpandsOnce (MacroTable.initial.define identityMacro)
      [plainName "ID", .onLine 9 .punctuator "(", plainName "a", .onLine 9 .eof "", plainName "b"]
      [plainName "ID", .onLine 9 .punctuator "(", plainName "a"] :=
  expandsOnce_of_check 9 (by decide +kernel)

end Call

end Preproc
