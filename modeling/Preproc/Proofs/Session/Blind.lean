import Preproc.Proofs.Session.Twins

/-! # What sees neither the limit on errors nor severities

Between two checks of the limit on errors a session does the same under any limit, whatever was told
before and however severe it was: `Session.Blind`. It does not stop by itself.

Main statements: `Session.blind_push` and `Session.blind_proceed`.
-/

namespace Preproc

namespace Session

/-- The session with another limit on errors, and with warnings taken for errors or not. -/
def under (limit : Nat) (severe : Bool) (session : Session) : Session :=
  { session with
    options := { session.options with errorLimit := limit, warnAsError := severe } }

/-- The session with another limit on errors. -/
def withLimit (limit : Nat) (session : Session) : Session :=
  { session with options := { session.options with errorLimit := limit } }

/-- What stays of a session until the limit on errors is checked again. -/
structure Keeps (session after : Session) : Prop where
  options : after.options = session.options
  stopped : after.stopped = session.stopped
  peeked : after.peeked = session.peeked

/-- Where an action succeeds, it succeeds under any limit on errors and with any sink, gives the
same and tells the same. -/
def Blind {α : Type} (action : SessionM α) : Prop :=
  ∀ session context value after next, action session context = .ok (value, after) next →
    session.Keeps after ∧ ∀ limit severe context', context'.table = context.table → ∃ next',
      action (session.under limit severe) context' = .ok (value, after.under limit severe) next' ∧
        context.Echo context' next next'

/-- The same session under another limit and with other severities. -/
def severed (start : Session) (limit : Nat) (severe : Bool) : Twins where
  retune options := { options with errorLimit := limit, warnAsError := severe }
  below := []
  below' := []
  kept := start.Keeps

theorem free_severed (start : Session) (limit : Nat) (severe : Bool) :
    (start.severed limit severe).Free .any :=
  .of_options (fun keeps options stopped peeked =>
    ⟨options.trans keeps.options, stopped.trans keeps.stopped, peeked.trans keeps.peeked⟩)
    (fun _ => rfl) (fun _ => rfl) fun _ => ⟨trivial, trivial⟩

theorem based_severed_iff {start session session' : Session} {limit : Nat} {severe : Bool} :
    (start.severed limit severe).Based session session' ↔
      start.Keeps session ∧ session' = session.under limit severe := by
  constructor
  · rintro ⟨above, keeps, files, rfl⟩
    exact ⟨keeps, by simp [under, severed, files]⟩
  · rintro ⟨keeps, rfl⟩
    exact ⟨session.files, keeps, by simp [severed], by simp [under, severed]⟩

namespace Blind

variable {α : Type} {action : SessionM α}

theorem of_linked (linked : ∀ start limit severe, Linked .any
    (severed start limit severe).Based action fun _ => (severed start limit severe).Based) :
    Blind action := by
  intro session context value after next ran
  have again (limit : Nat) (severe : Bool) (context' : Context)
      (same : context'.table = context.table) : session.Keeps after ∧ ∃ next',
      action (session.under limit severe) context' = .ok (value, after.under limit severe) next' ∧
        context.Echo context' next next' := by
    obtain ⟨after', next', ran', echo, _, based⟩ := (linked session limit severe).run
      (based_severed_iff.mpr ⟨⟨rfl, rfl, rfl⟩, rfl⟩) trivial same ran
    obtain ⟨keeps, rfl⟩ := based_severed_iff.mp based
    exact ⟨keeps, next', ran', echo⟩
  exact ⟨(again 0 false context rfl).1, fun limit severe context' same =>
    (again limit severe context' same).2⟩

theorem limited {session after : Session} {context next : Context} {value : α}
    (blind : Blind action) (ran : action session context = .ok (value, after) next) :
    context.Gains next ∧ session.Keeps after ∧
      ∀ limit, action (session.withLimit limit) context =
        .ok (value, after.withLimit limit) next := by
  obtain ⟨keeps, again⟩ := blind session context value after next ran
  have same (limit : Nat) : context.Gains next ∧
      action (session.withLimit limit) context = .ok (value, after.withLimit limit) next := by
    obtain ⟨next', ran', echo⟩ := again limit session.options.warnAsError context rfl
    obtain ⟨told, hears, _⟩ := echo.told
    have kept : after.under limit session.options.warnAsError = after.withLimit limit := by
      rw [← keeps.options]
      rfl
    rw [echo.same rfl, kept] at ran'
    exact ⟨hears.gains, ran'⟩
  exact ⟨(same 0).1, keeps, fun limit => (same limit).2⟩

end Blind

/-- **A step** does not see the limit on errors once it was checked. -/
theorem blind_proceed (fuel : Nat) : Blind (proceed fuel) :=
  .of_linked fun start limit severe =>
    (linked_proceed fuel (free_severed start limit severe) Iff.rfl).imp
      (fun _ _ based => based.alike rfl rfl) fun _ _ _ => And.right

/-- **Pushing a source** does not see the limit on errors. -/
theorem blind_push (fuel : Nat) (source path : String) : Blind (push fuel source path) :=
  .of_linked fun start limit severe => linked_push fuel
    (free_severed start limit severe) source path

end Session

end Preproc
