import Preproc.Proofs.Expansion.Delivery
import Preproc.Proofs.Regime.Basic

/-! # Actions that follow each other

One action follows another if, started in contexts of a kind, the second does what the first does:
it succeeds with a related value where the first succeeds, and fails in the same way where the first
fails. Only where the first reaches its bound on the number of steps the second is free. The
contexts remain of that kind.
-/

namespace Preproc.Engine

/-- The second action does what the first does, unless that one reaches its bound. -/
def Follows {α β : Type} (kin : Context → Context → Prop) (action : Engine α) (other : Engine β)
    (related : α → β → Prop) : Prop :=
  ∀ context context', kin context context' → match action context with
    | .ok value next =>
      ∃ value' next', other context' = .ok value' next' ∧ kin next next' ∧ related value value'
    | .error failure next =>
      failure = .outOfFuel ∨ ∃ next', other context' = .error failure next' ∧ kin next next'

/-- Whether an action succeeded with a value that passes a check. -/
def passes {α : Type} (check : α → Bool) : EStateM.Result Failure Context α → Bool
  | .ok value _ => check value
  | .error _ _ => false

theorem exists_ok_of_check {α : Type} {result : EStateM.Result Failure Context α} {check : α → Bool}
    (passes : passes check result = true) :
    ∃ value last, result = .ok value last ∧ check value = true := by
  cases result with
  | ok value last => exact ⟨value, last, rfl, passes⟩
  | error failure last => cases passes

/-- Contexts of one kind share the table, and what the engine does on its own keeps them of that
kind. -/
structure Kinship (table : MacroTable) (kin : Context → Context → Prop) : Prop where
  first : ∀ {context context'}, kin context context' → context.table = table
  second : ∀ {context context'}, kin context context' → context'.table = table
  traced : ∀ {context context'}, kin context context' → ∀ events events',
    kin { context with events } { context' with events := events' }
  allocated : ∀ {context context'}, kin context context' → ∀ arena arena',
    kin { context with arena } { context' with arena := arena' }
  reported : ∀ {context context'}, kin context context' → ∀ place notice,
    kin { context with sink := context.sink.report place notice }
      { context' with sink := context'.sink.report place notice }

namespace Follows

variable {α β γ δ : Type} {kin : Context → Context → Prop} {action : Engine α} {other : Engine β}
  {related related' : α → β → Prop}

theorem bind {next : α → Engine γ} {next' : β → Engine δ} {wanted : γ → δ → Prop}
    (first : Follows kin action other related)
    (rest : ∀ value value', related value value' → Follows kin (next value) (next' value') wanted) :
    Follows kin (action >>= next) (other >>= next') wanted := by
  intro context context' same
  have start := first context context' same
  change match EStateM.bind action next context with
    | .ok value next => ∃ _ _, EStateM.bind other next' context' = _ ∧ _
    | .error failure next => _ ∨ ∃ _, EStateM.bind other next' context' = _ ∧ _
  unfold EStateM.bind
  cases ran : action context with
  | error failure middle =>
    rw [ran] at start
    rcases start with ended | ⟨middle', ran', same'⟩
    · exact .inl ended
    · refine .inr ⟨middle', ?_, same'⟩
      rw [ran']
  | ok value middle =>
    rw [ran] at start
    obtain ⟨value', middle', ran', same', holds⟩ := start
    have goesOn := rest value value' holds middle middle' same'
    rw [ran']
    exact goesOn

theorem pure {value : α} {value' : β} (holds : related value value') :
    Follows kin (pure value) (pure value') related :=
  fun _ context' same => ⟨value', context', rfl, same, holds⟩

theorem throw (failure : Failure) :
    Follows kin (throw failure : Engine α) (throw failure : Engine β) related :=
  fun _ context' same => .inr ⟨context', rfl, same⟩

theorem outOfFuel : Follows kin (MonadExcept.throw Failure.outOfFuel : Engine α) other related :=
  fun _ _ _ => .inl rfl

section

variable (follows : Follows kin action other related)

include follows

theorem strengthen {condition : α → Prop} (ensures : Ensures action condition)
    (weaker : ∀ value value', related value value' → condition value → related' value value') :
    Follows kin action other related' := by
  intro context context' same
  have here := follows context context' same
  cases ran : action context with
  | error failure next =>
    rw [ran] at here
    exact here
  | ok value next =>
    rw [ran] at here
    obtain ⟨value', next', ran', same', holds⟩ := here
    exact ⟨value', next', ran', same', weaker value value' holds (ensures.gives ran)⟩

theorem imp (weaker : ∀ value value', related value value' → related' value value') :
    Follows kin action other related' :=
  follows.strengthen (.trivial action) fun value value' holds _ => weaker value value' holds

theorem also {condition : α → Prop} (ensures : Ensures action condition) :
    Follows kin action other fun value value' => related value value' ∧ condition value :=
  follows.strengthen ensures fun _ _ => And.intro

theorem image {wrap : α → γ} {wrap' : β → δ} {wanted : γ → δ → Prop}
    (wraps : ∀ value value', related value value' → wanted (wrap value) (wrap' value')) :
    Follows kin (do return wrap (← action)) (do return wrap' (← other)) wanted :=
  bind follows fun value value' holds => pure (wraps value value' holds)

end

variable {table : MacroTable} (kinship : Kinship table kin)
include kinship

theorem trace (event event' : Event) :
    Follows kin (Engine.trace event) (Engine.trace event') fun _ _ => True :=
  fun _ _ same => ⟨(), _, rfl, kinship.traced same _ _, trivial⟩

theorem allocate (text text' : String) :
    Follows kin (Engine.allocate text) (Engine.allocate text') fun _ _ => True :=
  fun _ _ same => ⟨(), _, rfl, kinship.allocated same _ _, trivial⟩

theorem report (place : Location) (notice : Notice) :
    Follows kin (Engine.report place notice) (Engine.report place notice) fun _ _ => True :=
  fun _ _ same => ⟨(), _, rfl, kinship.traced (kinship.reported same place notice) _ _, trivial⟩

theorem lookup (name : String) :
    Follows kin (Engine.entry? name) (Engine.entry? name) fun found found' =>
      found = table.entry? name ∧ found' = table.entry? name := by
  intro context context' same
  refine ⟨context'.table.entry? name, context', rfl, same, ?_, ?_⟩
  · rw [kinship.first same]
  · rw [kinship.second same]

omit kinship in
theorem forM {items : List γ} {act act' : γ → Engine Unit}
    (each : ∀ item, Follows kin (act item) (act' item) fun _ _ => True) :
    Follows kin (items.forM act) (items.forM act') fun _ _ => True := by
  induction items with
  | nil => exact pure trivial
  | cons item items ih =>
    exact bind (each item) fun _ _ _ => ih

theorem rescan (text : String) (place : Location) :
    Follows kin (Engine.rescan text place) (Engine.rescan text place) fun tokens tokens' =>
      tokens = tokens' :=
  bind (forM fun flaw => report kinship flaw.location (Engine.noticeOf flaw.what))
    fun _ _ _ => pure rfl

end Follows

end Preproc.Engine

/-- What actions meet with a table of kept macros is a judgement of each regime that is not silent.
-/
abbrev Preproc.Regime.meeting (regime : Regime) {fails : Failure → Prop}
    (possible : ∀ failure, regime.failure failure → fails failure) (loud : regime.silent = false)
    {table : MacroTable} (kept : ∀ entry ∈ table.entries, regime.entry entry) : regime.Logic where
  Keeps given action gives := given → Engine.Meets fails table True action gives
  bind first before rest given := .bind (first (before given)) fun value gained =>
    rest value ⟨given, gained⟩
  imp kept before after given := (kept (before given)).imp fun value => after value given
  pure holds given := .pure (holds given)
  throw failed given := .throw (possible _ (failed given))
  report place _ _ _ := (Engine.Meets.report trivial place _).imp fun _ _ => loud
  trace event _ := .trace event
  allocate text _ := .allocate text
  rescan text place _ := (Engine.Meets.rescan trivial text place).imp fun _ same =>
    ⟨same, fun silent => absurd (loud.symm.trans silent) (by decide)⟩
  lookup name _ := (Engine.Meets.lookup name).imp fun _ same entry found =>
    kept entry (List.mem_of_find?_eq_some (same ▸ found))
