import Preproc.Token.Basic

/-! # Open conditionals

Each `#if`, `#ifdef` or `#ifndef` that is not closed yet has a frame. The frame knows whether the
lines around the conditional are active, whether its present branch is, whether one of its branches
has been, and whether `#else` was seen.
-/

namespace Preproc

structure Conditional where
  directive : Token
  parentActive : Bool
  active : Bool
  branchTaken : Bool
  sawElse : Bool := false
  deriving DecidableEq, Repr

namespace Conditional

def opened (directive : Token) (parentActive enabled : Bool) : Conditional :=
  let active := parentActive && enabled
  { directive, parentActive, active, branchTaken := active }

def wantsCondition (frame : Conditional) : Bool :=
  !frame.sawElse && frame.parentActive && !frame.branchTaken

/-- The frame when its present branch is over and the next is not taken. -/
def inactive (frame : Conditional) : Conditional :=
  { frame with active := false }

/-- The frame in an `#elif` branch whose condition was evaluated. -/
def enterElif (frame : Conditional) (enabled : Bool) : Conditional :=
  { frame with active := enabled, branchTaken := enabled }

def enterElse (frame : Conditional) : Conditional :=
  { frame with
    sawElse := true
    active := frame.parentActive && !frame.branchTaken
    branchTaken := true }

/-- Whether lines are skipped inside open conditionals, innermost first. -/
def isSkipping : List Conditional → Bool
  | [] => false
  | frame :: _ => !frame.active

end Conditional

end Preproc
