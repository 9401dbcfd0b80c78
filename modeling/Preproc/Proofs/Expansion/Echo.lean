import Preproc.Proofs.Expansion.Follows

/-! # Actions that echo each other

What an action reports is added to the diagnostics and counted. An action is echoed by another if,
wherever it succeeds with a table of some kind, so does the other with the same table, with a
related value, and is told the same. Contexts that are equal remain so. A `Realm` says with which
tables, and whether only what is done without a diagnostic counts.
-/

namespace Preproc

namespace Context

/-- The diagnostics that one context has and another, earlier one had not. -/
def Tells (context next : Context) (told : List Diagnostic) : Prop :=
  next.sink.diagnostics.toList = context.sink.diagnostics.toList ++ told

/-- A context that has been added to: the errors among the new diagnostics are counted, and none of
them is about too many errors. -/
def Gains (context next : Context) : Prop :=
  ∃ told, context.Tells next told ∧
    next.sink.errorCount = context.sink.errorCount + told.countP (·.severity == .error) ∧
    ∀ diagnostic ∈ told, diagnostic.code ≠ some (Notice.code .tooManyErrors)

theorem Gains.of_sink {context next : Context} (same : next.sink = context.sink) :
    context.Gains next :=
  ⟨[], by simp [Tells, same], by simp [same], by simp⟩

theorem Gains.trans {context middle next : Context} (first : context.Gains middle)
    (rest : middle.Gains next) : context.Gains next := by
  obtain ⟨told, tells, counted, other⟩ := first
  obtain ⟨told', tells', counted', other'⟩ := rest
  refine ⟨told ++ told', ?_, ?_, ?_⟩
  · rw [Tells, tells', tells, List.append_assoc]
  · rw [counted', counted, List.countP_append, Nat.add_assoc]
  · exact fun diagnostic member =>
      (List.mem_append.mp member).elim (other diagnostic) (other' diagnostic)

end Context

/-- Reports notices at their places. -/
def Sink.reportAll (sink : Sink) (told : List (Location × Notice)) : Sink :=
  told.foldl (fun sink item => sink.report item.1 item.2) sink

theorem Sink.reportAll_append (sink : Sink) (told told' : List (Location × Notice)) :
    sink.reportAll (told ++ told') = (sink.reportAll told).reportAll told' :=
  List.foldl_append

/-- Nothing is taken from the trail of events, and every macro that is new in the table was traced.
-/
structure Context.Traces (context next : Context) : Prop where
  grows : ∀ event ∈ context.events, event ∈ next.events
  traced : ∀ entry ∈ next.table.entries, entry ∈ context.table.entries ∨
    .defining entry.definition ∈ next.events

namespace Context.Traces

variable {context middle next : Context}

theorem refl (context : Context) : context.Traces context :=
  ⟨fun _ => id, fun _ => .inl⟩

theorem trans (first : context.Traces middle) (rest : middle.Traces next) :
    context.Traces next := by
  refine ⟨fun event member => rest.grows event (first.grows event member), fun entry member => ?_⟩
  rcases rest.traced entry member with known | traced
  · exact (first.traced entry known).imp_right (rest.grows _)
  · exact .inr traced

theorem push {event : Event} (events : next.events = context.events.push event)
    (table : next.table = context.table) : context.Traces next := by
  refine ⟨fun other member => ?_, fun entry member => .inl (table ▸ member)⟩
  rw [events]
  exact Array.mem_push_of_mem event member

end Context.Traces

/-- A context that was told of some notices, none of them about too many errors. -/
structure Context.Hears (context : Context) (told : List (Location × Notice)) (next : Context) :
    Prop where
  sink : next.sink = context.sink.reportAll told
  other : ∀ item ∈ told, item.2 ≠ .tooManyErrors
  traces : context.Traces next

namespace Context.Hears

variable {context middle next : Context} {told told' : List (Location × Notice)}

theorem nothing (same : next.sink = context.sink) (traces : context.Traces next) :
    context.Hears [] next :=
  ⟨same, by simp, traces⟩

theorem refl (context : Context) : context.Hears [] context :=
  nothing rfl (.refl context)

theorem trans (first : context.Hears told middle) (rest : middle.Hears told' next) :
    context.Hears (told ++ told') next := by
  refine ⟨?_, List.forall_mem_append.mpr ⟨first.other, rest.other⟩, first.traces.trans rest.traces⟩
  rw [rest.sink, first.sink, Sink.reportAll_append]

theorem gains (hears : context.Hears told next) : context.Gains next := by
  induction told generalizing context with
  | nil => exact .of_sink hears.sink
  | cons item told ih =>
    obtain ⟨here, later⟩ := List.forall_mem_cons.mp hears.other
    let middle : Context := { context with sink := context.sink.report item.1 item.2 }
    have first : context.Gains middle := by
      refine ⟨[context.sink.diagnosticOf item.1 item.2], Array.toList_push, ?_, ?_⟩
      · simp [middle, Sink.report, Sink.record, List.countP_singleton]
      · refine List.forall_mem_singleton.mpr ?_
        obtain ⟨place, notice⟩ := item
        cases notice <;> first | exact absurd rfl here | simp [Sink.diagnosticOf, Notice.code]
    exact first.trans (@ih middle ⟨hears.sink, later, hears.traces.grows, hears.traces.traced⟩)

end Context.Hears

/-- How a context goes on beside another one. -/
structure Context.Echo (context context' next next' : Context) : Prop where
  table : next'.table = next.table
  told : ∃ told, context.Hears told next ∧ context'.Hears told next'
  same : context' = context → next' = next

namespace Context.Echo

variable {context context' middle middle' next next' : Context}

theorem refl (table : context'.table = context.table) : context.Echo context' context context' :=
  ⟨table, ⟨[], .refl context, .refl context'⟩, id⟩

theorem trans (first : context.Echo context' middle middle')
    (rest : middle.Echo middle' next next') : context.Echo context' next next' := by
  obtain ⟨told, hears, hears'⟩ := first.told
  obtain ⟨more, heard, heard'⟩ := rest.told
  exact ⟨rest.table, ⟨told ++ more, hears.trans heard, hears'.trans heard'⟩,
    fun equal => rest.same (first.same equal)⟩

theorem sink (echo : context.Echo context' next next') (same : context'.sink = context.sink) :
    next'.sink = next.sink := by
  obtain ⟨told, hears, hears'⟩ := echo.told
  rw [hears.sink, hears'.sink, same]

end Context.Echo

/-- Which runs count: those that begin with a table of some kind, and maybe only quiet ones. -/
structure Realm where
  fits : MacroTable → Prop
  quiet : Bool

namespace Realm

/-- The runs that begin with a table of some kind. -/
abbrev of (fits : MacroTable → Prop) : Realm := ⟨fits, false⟩

/-- All runs. -/
abbrev any : Realm := of fun _ => True

variable (realm : Realm) {α : Type}

/-- Whether a run that ends so counts. -/
def Counts (context : Context) : Prop :=
  realm.quiet = true → context.sink.diagnostics = #[]

/-- A value that an action gives in a run that counts. -/
def Gives (action : Engine α) (value : α) : Prop :=
  ∃ context next, realm.fits context.table ∧ action context = .ok value next ∧ realm.Counts next

variable {realm}

theorem Counts.of_hears {context next : Context} {told : List (Location × Notice)}
    (counts : realm.Counts next) (hears : context.Hears told next) : realm.Counts context := by
  intro quiet
  obtain ⟨_, tells, _⟩ := hears.gains
  rw [Context.Tells, counts quiet] at tells
  exact Array.toList_eq_nil_iff.mp (List.append_eq_nil_iff.mp tells.symm).1

end Realm

namespace Engine

variable {α β γ δ : Type} {realm : Realm}

/-- An action that only adds to what was told. -/
def Growing (action : Engine α) : Prop :=
  ∀ start : Context, Runs (fun _ => True) (fun context => ∃ told, start.Hears told context) action
    (fun _ next => ∃ told, start.Hears told next) fun _ => True

namespace Growing

variable {action : Engine α}

theorem of_hears (hears : ∀ {context : Context} {value next}, action context = .ok value next →
    ∃ told, context.Hears told next) : Growing action := by
  refine fun start => ⟨?_, fun _ _ => trivial⟩
  rintro context value next ⟨told, before⟩ ran
  obtain ⟨more, after⟩ := hears ran
  exact ⟨⟨told ++ more, before.trans after⟩, trivial⟩

theorem hears (growing : Growing action) {context next : Context} {value : α}
    (ran : action context = .ok value next) : ∃ told, context.Hears told next :=
  ((growing context).done ⟨[], .refl context⟩ ran).1

theorem bind {next : α → Engine β} (first : Growing action)
    (rest : ∀ value, Growing (next value)) : Growing (action >>= next) :=
  fun start => (first start).bind fun value _ => rest value start

theorem pure (value : α) : Growing (pure value) :=
  fun _ => .pure trivial

theorem throw (failure : Failure) : Growing (throw failure : Engine α) :=
  fun _ => .throw trivial

end Growing

/-- Where an action succeeds in a run that counts, so does another one, and its value is related. -/
def Echoes (realm : Realm) (action : Engine α) (other : Engine β) (related : α → β → Prop) : Prop :=
  ∀ context context' value next, realm.fits context.table → context'.table = context.table →
    action context = .ok value next → realm.Counts next →
    ∃ value' next', other context' = .ok value' next' ∧ context.Echo context' next next' ∧
      realm.fits next.table ∧ related value value'

namespace Echoes

variable {action : Engine α} {other : Engine β} {related related' : α → β → Prop}

theorem bind {next : α → Engine γ} {next' : β → Engine δ} {last : γ → δ → Prop}
    (first : Echoes realm action other related)
    (rest : ∀ value value', related value value' → Echoes realm (next value) (next' value') last)
    (counted : ∀ value middle found final, next value middle = .ok found final →
      realm.Counts final → realm.Counts middle := by
        exact fun _ _ _ _ _ _ quiet => absurd quiet Bool.false_ne_true) :
    Echoes realm (action >>= next) (other >>= next') last := by
  intro context context' found final fit table ran counts
  obtain ⟨value, middle, began, ran⟩ := bind_ok_iff.mp ran
  obtain ⟨value', middle', began', echo, fit, holds⟩ :=
    first context context' value middle fit table began (counted _ _ _ _ ran counts)
  obtain ⟨found', final', ran', echo', fit, holds⟩ :=
    rest value value' holds middle middle' found final fit echo.table ran counts
  exact ⟨found', final', bind_ok_iff.mpr ⟨value', middle', began', ran'⟩, echo.trans echo', fit,
    holds⟩

theorem pure {value : α} {value' : β} (holds : related value value') :
    Echoes realm (pure value) (pure value') related := by
  rintro context context' _ _ fit table ⟨⟩ _
  exact ⟨value', context', rfl, .refl table, fit, holds⟩

theorem throw (failure : Failure) : Echoes realm (throw failure : Engine α) other related := by
  rintro context context' _ _ _ _ ⟨⟩

theorem imp (echoes : Echoes realm action other related)
    (weaker : ∀ value value', related value value' → related' value value') :
    Echoes realm action other related' := by
  intro context context' value next fit table ran counts
  obtain ⟨value', next', ran', echo, fit, holds⟩ :=
    echoes context context' value next fit table ran counts
  exact ⟨value', next', ran', echo, fit, weaker value value' holds⟩

theorem gives (echoes : Echoes realm action other related) :
    Echoes realm action other fun value value' => related value value' ∧
      realm.Gives action value := by
  intro context context' value next fit table ran counts
  obtain ⟨value', next', ran', echo, fit', related⟩ :=
    echoes context context' value next fit table ran counts
  exact ⟨value', next', ran', echo, fit', related, context, next, fit, ran, counts⟩

/-- An action that goes the same way in all contexts with the same table. -/
theorem of_ok {action : Engine α} {value : MacroTable → α} {edit : MacroTable → MacroTable}
    {told : List (Location × Notice)}
    (ran : ∀ context : Context, ∃ next, action context = .ok (value context.table) next ∧
      next.table = edit context.table ∧ context.Hears told next)
    (keeps : ∀ table, realm.fits table → realm.fits (edit table)) :
    Echoes realm action action fun value value' => value' = value := by
  intro context context' found next fit same done _
  obtain ⟨_, ran₁, table, hears⟩ := ran context
  obtain ⟨next', ran₂, table', hears'⟩ := ran context'
  cases ran₁.symm.trans done
  refine ⟨_, next', ran₂, ⟨?_, ⟨told, hears, hears'⟩, ?_⟩, ?_, ?_⟩
  · rw [table, table', same]
  · rintro rfl
    exact (EStateM.Result.ok.inj (ran₂.symm.trans ran₁)).2
  · rw [table]
    exact keeps _ fit
  · rw [same]

end Echoes

end Engine

end Preproc
