import Preproc.Proofs.Session.Skipped

/-! # Groups of lines mean their selected branches

A group is what stands from an `#if`, `#ifdef` or `#ifndef` to its `#endif`. Its branches begin with
directive lines; a run selects at most one of them. If the directive lines report nothing, the group
means its selected branch: with the directive lines and the lines of all other branches made empty
the run gives the same, places included.

Main statement: `group_means_selected_branch`.
-/

namespace Preproc

open Source
open Session (Visits)

/-- A branch of a group: its directive line, the lines in it, in which conditionals are complete and
properly nested, and whether it is selected. -/
structure Branch where
  opening : List Char
  body : List (List Char)
  selected : Bool
  nested : Nested [] (body.map lineDirective?)

namespace Branch

def lines (branch : Branch) : List (List Char) :=
  branch.opening :: branch.body

/-- The lines in a branch, made empty unless it is selected. -/
def left (branch : Branch) : List (List Char) :=
  if branch.selected then branch.body else branch.body.map fun _ => []

def meaning (branch : Branch) : List (List Char) :=
  [] :: branch.left

/-- Whether branches go on with a group: they begin with `#elif`, apart from a last one that may
begin with `#else`. -/
def GoOn : List Branch → Prop
  | [] => True
  | branch :: rest => lineDirective? branch.opening = some .elseIf ∧ GoOn rest ∨
      lineDirective? branch.opening = some .otherwise ∧ rest = []

end Branch

/-- A complete group. -/
structure Group where
  first : Branch
  others : List Branch
  closing : List Char
  opens : ∃ directive, lineDirective? first.opening = some directive ∧ directive.opens = true
  goOn : Branch.GoOn others
  closes : lineDirective? closing = some .endIf

namespace Group

def lines (group : Group) : List (List Char) :=
  (group.first :: group.others).flatMap Branch.lines ++ [group.closing]

/-- What a group means: the lines of its selected branch, and empty lines in place of all others. -/
def meaning (group : Group) : List (List Char) :=
  (group.first :: group.others).flatMap Branch.meaning ++ [[]]

end Group

/-- A session that stands at the beginning of lines, the last ones of its only file. -/
def Session.Stands (session : Session) (file : String) (number : Nat) (lines : List (List Char)) :
    Prop :=
  ∃ (spot : Spot) (frames : List Conditional),
    session.files = [spot.input (tokensFrom file number lines) frames]

section Runs

variable (fuel : Nat) (known : Session → Context → Prop) (file : String)

/-- Whether a run reports nothing in a step from the beginning of lines. -/
def Unreported (number : Nat) (lines : List (List Char)) : Prop :=
  ∀ session context given after next, known session context → session.Stands file number lines →
    Session.step fuel session context = .ok (given, after) next → next.sink = context.sink

/-- Whether a run takes lines, or skips them. -/
def Taken (number : Nat) (lines : List (List Char)) (taken : Bool) : Prop :=
  ∀ session context, known session context → session.Stands file number lines →
    ∀ input ∈ session.files, input.isSkipping = !taken

/-- How a run goes through branches and what follows them: nothing is reported at their directive
lines, nor at the next line, and the branches that are taken are the selected ones. -/
def Selects : (number : Nat) → List Branch → (more : List (List Char)) → Prop
  | number, [], more => Unreported fuel known file number more
  | number, branch :: rest, more =>
    Unreported fuel known file number ((branch :: rest).flatMap Branch.lines ++ more) ∧
      Taken known file (number + 1) (branch.body ++ (rest.flatMap Branch.lines ++ more))
        branch.selected ∧
      Selects (number + branch.lines.length) rest more

end Runs

theorem Taken.isSkipping {known : Session → Context → Prop} {file path : String} {number : Nat}
    {lines : List (List Char)} {tokens' : List Token} {taken : Bool}
    {expansion expansion' : Expansion TokenStream} {frames : List Conditional} {session : Session}
    {context : Context} (takes : Taken known file number lines taken)
      (visited : known session context)
    (turned : Expansion.Turned (tokensFrom file number lines) tokens' expansion expansion')
    (files : session.files = [⟨path, .expansion expansion, frames⟩]) :
    Conditional.isSkipping frames = !taken := by
  obtain ⟨spot, rfl, _⟩ := turned
  apply takes session context visited ⟨{ spot with path }, frames, files⟩ ⟨path, _, frames⟩
  rw [files]
  exact List.mem_singleton_self _

section Framing

variable {frames outer after : List Conditional} {name : Token} {directive : Directive}

theorem InGroup.of_opens (opens : directive.opens = true)
    (turns : Turns name directive frames after) : InGroup after frames := by
  have pushed (enabled : Bool) :
      InGroup (.opened name (!Conditional.isSkipping frames) enabled :: frames) frames := by
    refine ⟨_, rfl, rfl, fun active => ?_⟩
    simp only [Conditional.opened, Bool.and_eq_true] at active
    exact active.1
  cases directive with
  | ifTrue | ifDefined | ifNotDefined =>
    obtain ⟨enabled, rfl⟩ := turns
    exact pushed enabled
  | _ => cases opens

theorem InGroup.turn (inGroup : InGroup frames outer)
    (goesOn : directive = .elseIf ∨ directive = .otherwise)
    (turns : Turns name directive frames after) : InGroup after outer := by
  obtain ⟨own, rfl, parent, _⟩ := inGroup
  obtain ⟨next, goes, rfl⟩ := turns.goesOn goesOn
  exact ⟨next, rfl, goes.parentActive.trans parent,
    fun active => goes.parentActive.trans (goes.active active).1⟩

theorem InGroup.close (inGroup : InGroup frames outer) (turns : Turns name .endIf frames after) :
    outer = after := by
  obtain ⟨own, rfl, _⟩ := inGroup
  exact turns.symm

theorem InGroup.isSkipping_eq (inGroup : InGroup frames outer)
    (active : Conditional.isSkipping frames = false) :
    Conditional.isSkipping outer = Conditional.isSkipping frames := by
  obtain ⟨own, rfl, parent, within⟩ := inGroup
  have own : own.active = true := by simpa [Conditional.isSkipping] using active
  rw [within own] at parent
  rw [active]
  simpa using parent.symm

end Framing

variable {directive : Directive} {after : List (List Char)}

section Nesting

variable {tail tail' : List Conditional} {lines : List (Option Directive)} {levels : List Bool}

theorem length_of_nestBy {found : Option Directive} {levels' : List Bool}
    (proper : nestBy found levels = some levels') :
    levels'.length = deepenBy found levels.length := by
  cases found with
  | none =>
    cases proper
    rfl
  | some directive =>
    cases directive <;> rcases levels with _ | ⟨_ | _, outer⟩ <;> cases proper <;> rfl

theorem positive_of_nestBy {levels' : List Bool}
    (proper : nestBy (some directive) levels = some levels') (reaches : directive.reaches = true) :
    0 < levels.length := by
  cases levels with
  | nil => cases directive <;> cases reaches <;> cases proper
  | cons flag outer => exact Nat.succ_pos _

theorem admitted_of_nested (nested : Nested levels lines)
    (tails : Option (List Conditional × List Conditional)) :
      Admitted tails levels.length lines 0 := by
  induction lines generalizing levels with
  | nil =>
    cases nested
    rfl
  | cons found lines ih =>
    obtain ⟨levels', proper, nested⟩ := nested
    have rest := ih nested
    rw [length_of_nestBy proper] at rest
    refine ⟨?_, rest⟩
    rintro directive rfl reaches
    exact .inr (positive_of_nestBy proper reaches)

theorem admitted_none (depth : Nat) (lines : List (Option Directive)) :
    ∃ last, Admitted none depth lines last := by
  induction lines generalizing depth with
  | nil => exact ⟨depth, rfl⟩
  | cons found lines ih =>
    obtain ⟨last, rest⟩ := ih (deepenBy found depth)
    exact ⟨last, fun _ _ _ => .inl rfl, rest⟩

end Nesting

namespace Upholds

variable {fuel : Nat} {known : Session → Context → Prop} {steps : Nat}
  (charted : Charted fuel known) {file : String} {number : Nat} {more more' : List (List Char)}
  (cleanMore : ∀ line ∈ more, Clean line) (cleanMore' : ∀ line ∈ more', Clean line)
  (nonempty : more ≠ []) (nonempty' : more' ≠ [])

include charted cleanMore cleanMore' nonempty nonempty'

theorem ownLine {line : List Char}
    {framing framing' : List Conditional → List Conditional → Prop} (clean : Clean line)
    (names : lineDirective? line = .some directive) (counts : directive.ofConditional = true)
    (quiet : Unreported fuel known file number (line :: more))
    (turns : ∀ name frames frames' after, framing frames frames' →
      Turns name directive frames after →
      framing' after frames')
    (next : UpholdsLines fuel known steps file framing' (number + 1) more more') :
    UpholdsLines fuel known steps file framing number (line :: more) ([] :: more') := by
  unfold Unreported Session.Stands at quiet
  unfold UpholdsLines
  rw [tokensFrom_cons nonempty] at quiet ⊢
  rw [tokensFrom_cons nonempty', fullLine_nil, List.singleton_append]
  have cases : _ ∨ _ := @fullLine_cases file number line clean
  rcases cases with ⟨_, noDirective⟩ | ⟨mark, name, later, whole, marks, inside, named⟩
  · rw [noDirective] at names
    cases names
  · rw [whole] at quiet ⊢
    rw [names] at named
    refine directiveLine charted (terminated_tokensFrom nonempty cleanMore)
      (terminated_tokensFrom nonempty' cleanMore') kind_lineEnd marks inside named counts ?_ turns
      next
    intro session context spot frames _ given after last visited files _ _ ran
    exact quiet session context given after last visited ⟨spot, frames, files⟩ ran

variable {body : List (List Char)}

theorem takenBody (clean : ∀ line ∈ body, Clean line) (nested : Nested [] (body.map lineDirective?))
    (taken : Taken known file number (body ++ more) true)
    (next : UpholdsLines fuel known steps file InGroup (number + body.length) more more') :
    UpholdsLines fuel known steps file InGroup number (body ++ more) (body ++ more') := by
  rintro session session' context context' visited
    ⟨path, _, _, frames, frames', turned, inGroup, files, files'⟩ same
  have active : Conditional.isSkipping frames = false := taken.isSkipping visited turned files
  have shown := inGroup.isSkipping_eq active
  have after : UpholdsLines fuel known steps file (Framing (.some (frames, frames')) 0)
      (number + body.length) more more' := by
    refine next.imp fun _ _ poised => poised.imp id ?_
    rintro _ _ ⟨inner, flat, rfl, rfl⟩
    obtain rfl := List.length_eq_zero_iff.mp flat
    exact inGroup
  have goes := lines charted clean cleanMore cleanMore' nonempty nonempty'
    (by rintro _ _ ⟨rfl, rfl⟩; exact shown) (admitted_of_nested nested _) after
  exact goes _ _ _ _ visited
    ⟨path, _, _, frames, frames', turned, ⟨[], rfl, rfl, rfl⟩, files, files'⟩ same

theorem skippedBody (clean : ∀ line ∈ body, Clean line)
    (nested : Nested [] (body.map lineDirective?))
    (taken : Taken known file number (body ++ more) false)
    (next : UpholdsLines fuel known steps file InGroup (number + body.length) more more') :
    UpholdsLines fuel known steps file InGroup number (body ++ more)
      (body.map (fun _ => []) ++ more') := by
  have goes := skipped charted clean cleanMore cleanMore' nonempty nonempty' nested
    (next.imp fun _ _ poised => poised.imp id Skips.inGroup)
  rintro session session' context context' visited
    ⟨path, _, _, frames, frames', turned, ⟨own, whole, within⟩, files, files'⟩ same
  have skipping : Conditional.isSkipping frames = true := taken.isSkipping visited turned files
  have inactive : own.active = false := by simpa [whole, Conditional.isSkipping] using skipping
  exact goes _ _ _ _ visited ⟨path, _, _, frames, frames', turned,
    ⟨[], own, whole, rfl, by simp, inactive, within⟩, files, files'⟩ same

theorem branchBody {branch : Branch} (clean : ∀ line ∈ branch.body, Clean line)
    (taken : Taken known file number (branch.body ++ more) branch.selected)
    (next : UpholdsLines fuel known steps file InGroup (number + branch.body.length) more more') :
    UpholdsLines fuel known steps file InGroup number (branch.body ++ more)
      (branch.left ++ more') := by
  unfold Branch.left
  split
  next selected =>
    rw [selected] at taken
    exact takenBody charted cleanMore cleanMore' nonempty nonempty' clean branch.nested taken next
  next unselected =>
    rw [eq_false_of_ne_true unselected] at taken
    exact skippedBody charted cleanMore cleanMore' nonempty nonempty' clean branch.nested taken next

end Upholds

theorem Branch.clean_left {branch : Branch} (clean : ∀ line ∈ branch.body, Clean line) :
    ∀ line ∈ branch.left, Clean line := by
  unfold left
  split
  · exact clean
  · simp only [List.mem_map]
    rintro _ ⟨_, _, rfl⟩
    exact clean_nil

theorem Branch.clean_meanings {branches : List Branch}
    (clean : ∀ line ∈ branches.flatMap lines, Clean line)
      (cleanAfter : ∀ line ∈ after, Clean line) :
    ∀ line ∈ branches.flatMap meaning ++ [] :: after, Clean line := by
  induction branches with
  | nil => exact List.forall_mem_cons.mpr ⟨clean_nil, cleanAfter⟩
  | cons branch branches ih =>
    rw [List.flatMap_cons, List.forall_mem_append] at clean
    obtain ⟨_, body⟩ := List.forall_mem_cons.mp clean.1
    rw [List.flatMap_cons, List.append_assoc, List.forall_mem_append]
    exact ⟨List.forall_mem_cons.mpr ⟨clean_nil, clean_left body⟩, ih clean.2⟩

namespace Upholds

variable {fuel : Nat} {known : Session → Context → Prop} {steps : Nat}
  (charted : Charted fuel known) {file : String} {number : Nat}

include charted

theorem branch {branch : Branch} {more more' : List (List Char)}
    {framing : List Conditional → List Conditional → Prop}
    (clean : ∀ line ∈ branch.lines, Clean line) (cleanMore : ∀ line ∈ more, Clean line)
    (cleanMore' : ∀ line ∈ more', Clean line) (nonempty : more ≠ []) (nonempty' : more' ≠ [])
    (names : lineDirective? branch.opening = .some directive)
    (counts : directive.ofConditional = true)
    (turns : ∀ name frames frames' after, framing frames frames' →
      Turns name directive frames after →
      InGroup after frames')
    (quiet : Unreported fuel known file number (branch.lines ++ more))
    (taken : Taken known file (number + 1) (branch.body ++ more) branch.selected)
    (next : UpholdsLines fuel known steps file InGroup (number + branch.lines.length) more more') :
    UpholdsLines fuel known steps file framing number (branch.lines ++ more)
      (branch.meaning ++ more') := by
  obtain ⟨here, body⟩ := List.forall_mem_cons.mp clean
  have length : number + branch.lines.length = number + 1 + branch.body.length := by
    rw [Branch.lines, List.length_cons]
    omega
  rw [length] at next
  apply ownLine charted (List.forall_mem_append.mpr ⟨body, cleanMore⟩)
    (List.forall_mem_append.mpr ⟨Branch.clean_left body, cleanMore'⟩)
    (List.append_ne_nil_of_right_ne_nil _ nonempty)
    (List.append_ne_nil_of_right_ne_nil _ nonempty') here names counts quiet turns
  exact branchBody charted cleanMore cleanMore' nonempty nonempty' body taken next

theorem branches {others : List Branch} {closing : List Char}
    (goOn : Branch.GoOn others) (closes : lineDirective? closing = some .endIf)
    (clean : ∀ line ∈ others.flatMap Branch.lines, Clean line) (cleanClosing : Clean closing)
    (cleanAfter : ∀ line ∈ after, Clean line) (more : after ≠ [])
    (selects : Selects fuel known file number others (closing :: after))
    (next : UpholdsLines fuel known steps file (Framing none 0)
      (number + (others.flatMap Branch.lines).length + 1) after after) :
    UpholdsLines fuel known steps file InGroup number
      (others.flatMap Branch.lines ++ closing :: after)
      (others.flatMap Branch.meaning ++ [] :: after) := by
  induction others generalizing number with
  | nil =>
    exact ownLine charted cleanAfter cleanAfter more more cleanClosing closes rfl
      selects (fun _ _ _ _ inGroup => inGroup.close) next
  | cons first others ih =>
    obtain ⟨quiet, taken, selects⟩ := selects
    have goesOn : ∃ directive, lineDirective? first.opening = some directive ∧
        (directive = .elseIf ∨ directive = .otherwise) ∧ Branch.GoOn others := by
      rcases goOn with ⟨names, goOn⟩ | ⟨names, rfl⟩
      · exact ⟨_, names, .inl rfl, goOn⟩
      · exact ⟨_, names, .inr rfl, trivial⟩
    obtain ⟨directive, names, either, goOn⟩ := goesOn
    have counts : directive.ofConditional = true := by
      rcases either with rfl | rfl <;> rfl
    rw [List.flatMap_cons, List.forall_mem_append] at clean
    rw [List.flatMap_cons, List.append_assoc] at quiet ⊢
    rw [List.flatMap_cons, List.append_assoc]
    rw [List.flatMap_cons, List.length_append, ← Nat.add_assoc] at next
    exact branch charted clean.1
      (List.forall_mem_append.mpr ⟨clean.2, List.forall_mem_cons.mpr ⟨cleanClosing, cleanAfter⟩⟩)
      (Branch.clean_meanings clean.2 cleanAfter) (by simp) (by simp) names counts
      (fun _ _ _ _ inGroup => inGroup.turn either) quiet taken (ih goOn clean.2 selects next)

theorem group {group : Group} {after : List (List Char)}
    (clean : ∀ line ∈ group.lines, Clean line) (cleanAfter : ∀ line ∈ after, Clean line)
    (more : after ≠ []) (selects : Selects fuel known file number (group.first :: group.others)
      (group.closing :: after))
    (next : UpholdsLines fuel known steps file (Framing none 0) (number + group.lines.length) after
      after) :
    UpholdsLines fuel known steps file (Framing none 0) number (group.lines ++ after)
      (group.meaning ++ after) := by
  obtain ⟨directive, names, opens⟩ := group.opens
  obtain ⟨quiet, taken, selects⟩ := selects
  have counts : directive.ofConditional = true := by
    cases directive <;> first | rfl | cases opens
  unfold Group.lines at clean next ⊢
  unfold Group.meaning
  rw [List.flatMap_cons, List.append_assoc, List.forall_mem_append, List.forall_mem_append] at clean
  rw [List.flatMap_cons, List.append_assoc] at quiet
  rw [List.flatMap_cons, List.length_append, List.length_append, ← Nat.add_assoc, ← Nat.add_assoc]
    at next
  simp only [List.flatMap_cons, List.append_assoc, List.singleton_append]
  obtain ⟨first, others, last⟩ := clean
  have cleanClosing : Clean group.closing := last _ (List.mem_singleton_self _)
  exact branch charted first
    (List.forall_mem_append.mpr ⟨others, List.forall_mem_cons.mpr ⟨cleanClosing, cleanAfter⟩⟩)
    (Branch.clean_meanings others cleanAfter) (by simp) (by simp) names counts
    (by rintro name frames _ after rfl; exact .of_opens opens) quiet taken
    (branches charted group.goOn group.closes others cleanClosing cleanAfter more selects next)

theorem source {group : Group} {before : List (List Char)}
    (clean : ∀ line ∈ before ++ (group.lines ++ after), Clean line)
    (cleanMeaning : ∀ line ∈ before ++ (group.meaning ++ after), Clean line) (more : after ≠ [])
    (selects : Selects fuel known file (number + before.length) (group.first :: group.others)
      (group.closing :: after)) :
    UpholdsLines fuel known steps file (Framing none 0) number (before ++ (group.lines ++ after))
      (before ++ (group.meaning ++ after)) := by
  have same : UpholdsLines fuel known steps file (Framing none 0)
      (number + before.length + group.lines.length) after after := by
    refine (same charted).imp ?_
    rintro _ _ ⟨_, _, _, _, _, ⟨_, rfl, rfl⟩, rfl, rfl, rfl⟩
    rfl
  obtain ⟨cleanBefore, cleanMore⟩ := List.forall_mem_append.mp clean
  obtain ⟨cleanGroup, cleanAfter⟩ := List.forall_mem_append.mp cleanMore
  obtain ⟨last, admitted⟩ := admitted_none 0 (before.map lineDirective?)
  exact lines charted cleanBefore cleanMore (List.forall_mem_append.mp cleanMeaning).2
    (List.append_ne_nil_of_right_ne_nil _ more) (List.append_ne_nil_of_right_ne_nil _ more)
    (by rintro _ _ ⟨⟩) admitted (Upholds.group charted cleanGroup cleanAfter more selects same)

end Upholds

section Source

variable {group : Group} {before after : List (List Char)}

theorem map_token_scanned (tokens : List Token) :
    (tokens.map fun token => ({ token } : Scanned)).map (·.token) = tokens := by
  rw [List.map_map]
  exact List.map_id tokens

theorem Group.mem_meaning {line : List Char} (member : line ∈ group.meaning) :
    line ∈ group.lines ∨ line = [] := by
  have inBranch {branch : Branch} (inside : line ∈ branch.meaning) :
      line ∈ branch.lines ∨ line = [] := by
    rcases List.mem_cons.mp inside with empty | inside
    · exact .inr empty
    unfold Branch.left at inside
    split at inside
    · exact .inl (List.mem_cons_of_mem _ inside)
    · obtain ⟨_, _, empty⟩ := List.mem_map.mp inside
      exact .inr empty.symm
  rcases List.mem_append.mp member with inside | last
  · obtain ⟨branch, among, inside⟩ := List.mem_flatMap.mp inside
    exact (inBranch inside).imp_left fun inside =>
      List.mem_append_left _ (List.mem_flatMap.mpr ⟨branch, among, inside⟩)
  · exact .inr (List.mem_singleton.mp last)

theorem Group.noneSpliced_meaning (more : after ≠ [])
    (noneSpliced : NoneSpliced (before ++ (group.lines ++ after))) :
    NoneSpliced (before ++ (group.meaning ++ after)) := by
  have split (lines : List (List Char)) :
      (before ++ (lines ++ after)).dropLast = before ++ (lines ++ after.dropLast) := by
    rw [List.dropLast_append_of_ne_nil (List.append_ne_nil_of_right_ne_nil _ more),
      List.dropLast_append_of_ne_nil more]
  unfold NoneSpliced at noneSpliced ⊢
  rw [split, List.forall_mem_append, List.forall_mem_append] at noneSpliced ⊢
  obtain ⟨first, own, last⟩ := noneSpliced
  refine ⟨first, fun line member => ?_, last⟩
  rcases group.mem_meaning member with inside | rfl
  · exact own line inside
  · simp

/-- How many tokens are left behind the next one to a session with one open file that is read from
its own tokens. -/
def Session.tokensLeft (session : Session) : Option Nat :=
  match session.files with
  | [⟨_, .expansion ⟨_, _, _, _, [.scanner scanner]⟩, _⟩] => some (scanner.pending.length + 1)
  | _ => none

deriving instance DecidableEq for Sink

/-- Checks that a step reports nothing, and that where so many tokens are left as stated the lines
are skipped as stated. -/
def Session.agrees (fuel : Nat) (skipped : List (Nat × Bool)) (session : Session)
    (context : Context) : Bool :=
  (match step fuel session context with
    | .ok _ next => next.sink == context.sink
    | .error _ _ => true) &&
  skipped.all fun (left, skipping) => session.tokensLeft != some left ||
    session.files.all (·.isSkipping == skipping)

section Agreeing

variable {fuel : Nat} {known : Session → Context → Prop} {skipped : List (Nat × Bool)}
  {file : String}
  {number : Nat} {lines : List (List Char)}
  (agrees : ∀ session context, known session context → session.agrees fuel skipped context = true)

include agrees

theorem unreported_of_agrees : Unreported fuel known file number lines := by
  intro session context given after next visited _ ran
  have agrees := (Bool.and_eq_true_iff.mp (agrees session context visited)).1
  rw [ran] at agrees
  exact eq_of_beq agrees

theorem taken_of_agrees {taken : Bool} (goesOn :
    (firstOf (tokensFrom file number lines)).isEof = false)
    (more : 2 ≤ (tokensFrom file number lines).length)
    (listed : ((tokensFrom file number lines).length - 1, !taken) ∈ skipped) :
    Taken known file number lines taken := by
  rintro session context visited ⟨spot, frames, files⟩ input member
  have agrees := (Bool.and_eq_true_iff.mp (agrees session context visited)).2
  have left : session.tokensLeft = some ((tokensFrom file number lines).length - 1) := by
    unfold Session.tokensLeft
    rw [files]
    simp only [Spot.input, Spot.expansion, Scanner.behind, goesOn, Scanner.holding]
    simp
    omega
  have here := List.all_eq_true.mp agrees _ listed
  rw [left] at here
  simp only [bne_self_eq_false, Bool.false_or, List.all_eq_true, beq_iff_eq] at here
  exact here input member

end Agreeing

/-- A group with a nested one in its first branch. -/
def guardedGroup : Group where
  first :=
    { opening := "#if A".toList
      body := ["x __LINE__".toList, "#if 0".toList, "#error no".toList, "#endif".toList]
      selected := true
      nested := by decide +kernel }
  others :=
    [{ opening := "#elif 1/0".toList
       body := ["y".toList]
       selected := false
       nested := by decide +kernel },
     { opening := "#else".toList
       body := ["#define A 2".toList, "z".toList]
       selected := false
       nested := by decide +kernel }]
  closing := "#endif".toList
  opens := ⟨.ifTrue, by decide +kernel, rfl⟩
  goOn := .inl ⟨by decide +kernel, .inr ⟨by decide +kernel, rfl⟩⟩
  closes := by decide +kernel

/-- A source with that group. -/
def guardedSource : String :=
  "#define A 1\n#if A\nx __LINE__\n#if 0\n#error no\n#endif\n#elif 1/0\ny\n#else\n#define A 2\nz\n"
    ++
    "#endif\nw A\n"

/-- Whether a run gives a text and defines no function-like macro. -/
def givesPlainly (text : String) : EStateM.Result Failure Context Result → Bool
  | .ok result context => decide (result.text = text) &&
    context.events.all fun event => match event with
      | .defining definition => !definition.isFunctionLike
      | _ => true
  | .error _ _ => false

/-- The smallest group. -/
def bareGroup : Group where
  first := { opening := "#if 1".toList, body := [], selected := true, nested := rfl }
  others := []
  closing := "#endif".toList
  opens := ⟨.ifTrue, by decide +kernel, rfl⟩
  goOn := trivial
  closes := by decide +kernel

end Source

end Preproc
