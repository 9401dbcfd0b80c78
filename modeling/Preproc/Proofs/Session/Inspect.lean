import Preproc.Proofs.Session.Visited

/-! # Inspecting a run

A run that comes to its end without a limit on errors visits finitely many states. A check that is
made in each of them holds of every state that is visited.
-/

namespace Preproc.Session

/-- Checks the states of a run, one by one, until all files are closed. -/
def inspect (fuel : Nat) (check : Session → Context → Bool) :
    (bound : Nat) → Session → Context → Bool
  | 0, _, _ => false
  | bound + 1, session, context =>
    check session context &&
      (session.files.isEmpty && session.options.errorLimit == 0 ||
        match step fuel session context with
        | .ok (_, after) next => inspect fuel check bound after next
        | .error _ _ => true)

variable {fuel : Nat} {check : Session → Context → Bool} {session after : Session}
  {context next : Context} {given : Option Token}

theorem step_of_no_files (closed : session.files = [])
    (unlimited : session.options.errorLimit = 0) :
    step fuel session context = .ok (some session.finish, session) context := by
  have goesOn : stops session context = false := by simp [stops, unlimited]
  rw [step_eq]
  refine bind_ok_iff.mpr ⟨(), session, context, checkErrorLimit_of_goesOn goesOn, ?_⟩
  rw [proceed_of_no_files fuel closed]
  rfl

theorem inspect_of_step {bound : Nat} (passes : inspect fuel check bound session context = true)
    (ran : step fuel session context = .ok (given, after) next) :
    ∃ bound, inspect fuel check bound after next = true := by
  cases bound with
  | zero => cases passes
  | succ bound =>
    have whole := passes
    unfold inspect at passes
    rw [ran, Bool.and_eq_true, Bool.or_eq_true, Bool.and_eq_true, List.isEmpty_iff, beq_iff_eq]
      at passes
    rcases passes.2 with ⟨closed, unlimited⟩ | passes
    · rw [step_of_no_files closed unlimited] at ran
      cases ran
      exact ⟨bound + 1, whole⟩
    · exact ⟨bound, passes⟩

/-- **What an inspection finds holds of every state that is visited.** -/
theorem Visits.inspected {options : Options} {includes : IncludeSystem} {source file : String}
    (bound : Nat) (passes : (match push fuel source file { options, includes } options.context with
      | .ok (_, session) context => inspect fuel check bound session context
      | .error _ _ => true) = true)
    (visited : Visits fuel options includes source file session context) :
    check session context = true := by
  suffices passes : ∃ bound, inspect fuel check bound session context = true by
    obtain ⟨bound, passes⟩ := passes
    cases bound with
    | zero => cases passes
    | succ bound =>
      exact (Bool.and_eq_true_iff.mp passes).1
  induction visited with
  | opened ran =>
    rw [ran] at passes
    exact ⟨bound, passes⟩
  | step _ ran ih =>
    obtain ⟨bound, passes⟩ := ih
    exact inspect_of_step passes ran

end Preproc.Session
