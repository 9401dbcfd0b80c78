import Preproc.Proofs.Session.LineTokens
import Preproc.Proofs.Session.Upholds

/-! # Lines that are skipped

Where the lines of a file are skipped, the directives of conditionals open, continue and close
conditionals of their own, in which nothing is active. If these nest properly then nothing is left
of the lines: a session that reads empty lines in their place keeps up.

Main statements: `Upholds.skipped` and, for lines that are not skipped, `Upholds.lines`.
-/

namespace Preproc

open Source
open Session (Beside)

/-- The open conditionals after a line with a directive or none, if it is proper: no branch comes
after `#else`, and what is continued or closed is open. Of each the last branch is known, innermost
first: whether it is that of `#else`. -/
def nestBy : Option Directive → (levels : List Bool) → Option (List Bool)
  | some .ifTrue, levels | some .ifDefined, levels | some .ifNotDefined, levels =>
    some (false :: levels)
  | some .elseIf, false :: outer => some (false :: outer)
  | some .otherwise, false :: outer => some (true :: outer)
  | some .endIf, _ :: outer => some outer
  | some .elseIf, _ | some .otherwise, _ | some .endIf, _ => none
  | _, levels => some levels

theorem nestBy_of_other {found : Option Directive}
    (other : ∀ directive ∈ found, directive.ofConditional = false) (levels : List Bool) :
    nestBy found levels = some levels := by
  cases found with
  | none => rfl
  | some directive =>
    have uncounted := other directive rfl
    cases directive <;> first | rfl | cases uncounted

variable {levels : List Bool} {directive : Directive} {name : Token} {later : List Token}

theorem eq_of_nestBy {levels' : List Bool} (goesOn : directive = .elseIf ∨ directive = .otherwise)
    (proper : nestBy (some directive) levels = some levels') :
    ∃ outer, levels = false :: outer ∧ levels' = (directive == .otherwise) :: outer := by
  rcases levels with _ | ⟨_ | _, outer⟩ <;> rcases goesOn with rfl | rfl <;> cases proper <;>
    exact ⟨outer, rfl, rfl⟩

/-- Whether the conditionals on lines are complete and properly nested, inside of open ones. -/
def Nested : (levels : List Bool) → List (Option Directive) → Prop
  | levels, [] => levels = []
  | levels, directive :: rest =>
    ∃ levels', nestBy directive levels = some levels' ∧ Nested levels' rest

instance decidableNested : (levels : List Bool) → (lines : List (Option Directive)) →
    Decidable (Nested levels lines)
  | levels, [] => inferInstanceAs (Decidable (levels = []))
  | levels, directive :: rest =>
    match found : nestBy directive levels with
    | none => isFalse (by rintro ⟨_, proper, _⟩; rw [found] at proper; cases proper)
    | some levels' =>
      have := decidableNested levels' rest
      decidable_of_iff (Nested levels' rest) ⟨fun nested => ⟨levels', found, nested⟩, by
        rintro ⟨_, proper, nested⟩
        rw [found] at proper
        cases proper
        exact nested⟩

/-- A conditional in which nothing is active, whatever its branches. -/
def Conditional.Dead (frame : Conditional) : Prop :=
  frame.parentActive = false ∧ frame.active = false

/-- A conditional that is open inside of others, and is active only where they are. -/
def Conditional.Within (frame : Conditional) (outer : List Conditional) : Prop :=
  frame.parentActive = !isSkipping outer ∧ (frame.active = true → frame.parentActive = true)

/-- The conditionals of the first side are those of the second with one more inside of them. -/
def InGroup (frames outer : List Conditional) : Prop :=
  ∃ own, frames = own :: outer ∧ own.Within outer

/-- The lines of the first side are skipped in a branch of that one more conditional, inside of dead
ones. -/
def Skips (levels : List Bool) (frames outer : List Conditional) : Prop :=
  ∃ nested own, frames = nested ++ own :: outer ∧ nested.map (·.sawElse) = levels ∧
    (∀ frame ∈ nested, frame.Dead) ∧ own.active = false ∧ own.Within outer

namespace Skips

variable {levels levels' : List Bool} {frames outer after : List Conditional}

theorem isSkipping (skips : Skips levels frames outer) : Conditional.isSkipping frames = true := by
  obtain ⟨nested, own, rfl, _, dead, inactive, _⟩ := skips
  cases nested with
  | nil => simp [Conditional.isSkipping, inactive]
  | cons frame nested => simp [Conditional.isSkipping, (dead frame (by simp)).2]

theorem inGroup (skips : Skips [] frames outer) : InGroup frames outer := by
  obtain ⟨nested, own, rfl, flat, _, _, within⟩ := skips
  cases nested with
  | nil => exact ⟨own, rfl, within⟩
  | cons frame nested => simp at flat

theorem push (skips : Skips levels frames outer) (token : Token) (enabled : Bool) :
    Skips (false :: levels) (.opened token (!Conditional.isSkipping frames) enabled ::
      frames) outer := by
  have quiet := skips.isSkipping
  obtain ⟨nested, own, rfl, flags, dead, rest⟩ := skips
  rw [quiet]
  refine ⟨_ :: nested, own, rfl, ?_, List.forall_mem_cons.mpr ⟨⟨rfl, rfl⟩, dead⟩, rest⟩
  rw [List.map_cons, flags]
  rfl

theorem cons {flag : Bool} (skips : Skips (flag :: levels) frames outer) :
    ∃ frame rest, frames = frame :: rest ∧ frame.Dead ∧ frame.sawElse = flag ∧
      Skips levels rest outer ∧
      ∀ other : Conditional, other.Dead →
        Skips (other.sawElse :: levels) (other :: rest) outer := by
  obtain ⟨nested, own, rfl, flags, dead, rest⟩ := skips
  cases nested with
  | nil => simp at flags
  | cons frame nested =>
    obtain ⟨rfl, rfl⟩ := List.cons.inj flags
    obtain ⟨here, later⟩ := List.forall_mem_cons.mp dead
    refine ⟨frame, nested ++ own :: outer, rfl, here, rfl, ⟨nested, own, rfl, rfl, later, rest⟩,
      fun other dies => ?_⟩
    exact ⟨other :: nested, own, rfl, rfl, List.forall_mem_cons.mpr ⟨dies, later⟩, rest⟩

/-- A directive of a conditional among lines that are skipped reports nothing and leaves the lines
skipped. -/
theorem turn (skips : Skips levels frames outer)
    (counts : directive.ofConditional = true)
      (proper : nestBy (some directive) levels = some levels') :
    Silent directive frames ∧
      ∀ name after, Turns name directive frames after → Skips levels' after outer := by
  cases directive with
  | ifTrue | ifDefined | ifNotDefined =>
    cases proper
    refine ⟨skips.isSkipping, ?_⟩
    rintro name _ ⟨enabled, rfl⟩
    exact skips.push name enabled
  | elseIf =>
    obtain ⟨outer, rfl, rfl⟩ := eq_of_nestBy (.inl rfl) proper
    obtain ⟨frame, rest, rfl, ⟨parent, inactive⟩, first, _, replace⟩ := skips.cons
    have unasked : frame.wantsCondition = false := by simp [Conditional.wantsCondition, parent]
    refine ⟨⟨parent, first⟩, ?_⟩
    rintro _ _ ⟨enabled, rfl⟩
    rw [unasked]
    have same := replace frame.inactive ⟨parent, rfl⟩
    rwa [show frame.inactive.sawElse = false from first] at same
  | otherwise =>
    obtain ⟨outer, rfl, rfl⟩ := eq_of_nestBy (.inr rfl) proper
    obtain ⟨frame, rest, rfl, ⟨parent, inactive⟩, first, _, replace⟩ := skips.cons
    refine ⟨⟨parent, first⟩, ?_⟩
    rintro _ _ rfl
    rw [first]
    exact replace frame.enterElse ⟨parent, by simp [Conditional.enterElse, parent]⟩
  | endIf =>
    obtain _ | ⟨flag, outer⟩ := levels <;> cases proper
    obtain ⟨frame, rest, rfl, ⟨parent, _⟩, _, pops, _⟩ := skips.cons
    refine ⟨parent, ?_⟩
    rintro _ _ rfl
    exact pops
  | _ => cases counts

end Skips

theorem LineRest.split {front : List Token} (line : LineRest front) :
    ∃ operands newline, front = operands ++ [newline] ∧
      (∀ token ∈ operands, token.endsLine = false) ∧ newline.kind = .newline := by
  induction front with
  | nil => exact line.elim
  | cons token front ih =>
    rcases line.cases with ⟨newline, whole, kind⟩ | ⟨first, later, whole, line, _, inside, _⟩
    · cases whole
      exact ⟨[], token, rfl, by simp, kind⟩
    · cases whole
      obtain ⟨operands, newline, rfl, others, kind⟩ := ih line
      exact ⟨token :: operands, newline, rfl, List.forall_mem_cons.mpr ⟨inside, others⟩, kind⟩

theorem LineRest.behindName
    (line : LineRest (name :: later)) (names : name.directive? = some directive) :
    ∃ operands newline, later = operands ++ [newline] ∧
      (∀ token ∈ operands, token.endsLine = false) ∧ newline.kind = .newline := by
  rcases line.cases with ⟨newline, whole, kind⟩ | ⟨first, rest, whole, line, _⟩
  · cases whole
    simp [Token.directive?, Token.isIdentifier, kind] at names
  · cases whole
    exact line.split

section Poised

variable {framing : List Conditional → List Conditional → Prop} {tokens tokens' : List Token}
  {session session' : Session}

theorem Session.Beside.exists_spot (beside : Beside
    (Poised framing tokens tokens') session session') :
    ∃ (spot : Spot) (frames frames' : List Conditional), framing frames frames' ∧
      session.files = [spot.input tokens frames] ∧ session' = session.poise spot tokens' frames' ∧
      ∀ {framing' : List Conditional → List Conditional → Prop} {rest rest' after after'},
        framing' after after' →
          Beside (Poised framing' rest rest') (session.poise spot rest after)
            (session.poise spot rest' after') := by
  obtain ⟨⟨path, _, _, frames, frames', ⟨spot, rfl, rfl⟩, framed, files, files'⟩, same⟩ := beside
  rw [files'] at same
  refine ⟨{ spot with path }, frames, frames', framed, files, same, fun framed => ⟨?_, rfl⟩⟩
  exact ⟨path, _, _, _, _, ⟨spot, rfl, rfl⟩, framed, rfl, rfl⟩

end Poised

namespace Upholds

variable {fuel : Nat} {known : Session → Context → Prop} {steps : Nat}
  (charted : Charted fuel known)
  {rest rest' : List Token} {newline' : Token}
  {framing framing' : List Conditional → List Conditional → Prop}
  (ends : Terminated rest) (ends' : Terminated rest') (kind' : newline'.kind = .newline)

include charted ends ends' kind'

theorem skippedRest {front : List Token} (line : LineRest front)
    (skipping : ∀ frames frames', framing frames frames' → Conditional.isSkipping frames = true)
    (next : Upholds fuel known steps (Poised framing rest rest')) :
    Upholds fuel known steps (Poised framing (front ++ rest) (newline' :: rest')) := by
  induction front generalizing steps with
  | nil => exact line.elim
  | cons token front ih =>
    cases steps with
    | zero => exact zero
    | succ steps =>
      have next := next.mono (Nat.le_succ steps)
      rcases line.cases with ⟨newline, whole, kind⟩ | ⟨first, later, whole, line, plain, _, goesOn⟩
      · cases whole
        refine both charted ?_ next
        intro session session' context given after read _ unstopped beside ran
        obtain ⟨spot, frames, frames', framed, files, rfl, moved⟩ := beside.exists_spot
        rw [Session.eq_poise files] at ran
        obtain ⟨fuel, rfl⟩ := Nat.exists_eq_add_of_le' (Session.two_le_of_step fuel unstopped
          (Session.isEof_of_newline kind) (.inr (.inl kind)) ran)
        rw [List.singleton_append, Session.step_newline fuel unstopped kind ends] at ran
        cases ran
        exact ⟨rfl, rfl, rfl, _, moved framed, fun context' unstopped' =>
          Session.step_newline fuel unstopped' kind' ends'⟩
      · cases whole
        refine alone charted ?_ (ih line next)
        intro session session' context given after read _ unstopped beside ran
        obtain ⟨spot, frames, frames', framed, files, rfl, moved⟩ := beside.exists_spot
        rw [Session.eq_poise files] at ran
        obtain ⟨rfl, rfl, rfl⟩ := Session.of_step_passed fuel unstopped plain goesOn
          (.inr (skipping _ _ framed)) (line.terminated ends) ran
        exact ⟨rfl, rfl, rfl, moved framed⟩

/-- A line with a directive of a conditional, against an empty line, when the directive reports
nothing. -/
theorem directiveLine {mark : Token}
    (marks : mark.kind = .directive) (line : LineRest (name :: later))
    (names : name.directive? = some directive) (counts : directive.ofConditional = true)
    (quiet : ∀ session context (spot : Spot) frames frames' given after last,
      known session context →
      session.files = [spot.input (mark :: name :: later ++ rest) frames] →
      framing frames frames' → (Silent directive frames → last.sink = context.sink) →
      Session.step fuel session context = .ok (given, after) last → last.sink = context.sink)
    (turns : ∀ name frames frames' after, framing frames frames' →
      Turns name directive frames after →
      framing' after frames')
    (next : Upholds fuel known steps (Poised framing' rest rest')) :
    Upholds fuel known steps
      (Poised framing (mark :: name :: later ++ rest) (newline' :: rest')) := by
  obtain ⟨operands, newline, rfl, inside, kind⟩ := line.behindName names
  have shape : mark :: name :: (operands ++ [newline]) ++ rest =
      mark :: name :: operands ++ newline :: rest := by simp
  rw [shape] at quiet ⊢
  cases steps with
  | zero => exact zero
  | succ steps =>
    refine both charted ?_ (next.mono (Nat.le_succ steps))
    intro session session' context given after last visited unstopped beside ran
    obtain ⟨spot, frames, frames', framed, files, rfl, moved⟩ := beside.exists_spot
    have notEof : mark.isEof = false := by simp [Token.isEof, marks]
    have reports := quiet session context spot frames frames' given after last visited files framed
    have ran' := ran
    rw [Session.eq_poise files] at ran'
    obtain ⟨fuel, rfl⟩ := Nat.exists_eq_add_of_le' (Session.two_le_of_step fuel unstopped
      notEof (.inl marks) ran')
    obtain ⟨rfl, table, silent, map, frames₂, turned, rfl⟩ :=
      Session.of_step_conditional _ unstopped inside kind ends marks names counts ran'
    exact ⟨rfl, table, reports silent ran, _, moved (turns _ _ _ _ framed turned),
      fun context' unstopped' => Session.step_newline fuel unstopped' kind' ends'⟩

theorem otherLine {mark : Token} (marks : mark.kind = .directive) (line : LineRest (name :: later))
    (other : ∀ directive ∈ name.directive?, directive.ofConditional = false)
    (skipping : ∀ frames frames', framing frames frames' → Conditional.isSkipping frames = true)
    (next : Upholds fuel known steps (Poised framing rest rest')) :
    Upholds fuel known steps
      (Poised framing (mark :: name :: later ++ rest) (newline' :: rest')) := by
  obtain ⟨operands, newline, whole, inside, kind⟩ := line.split
  have shape : mark :: name :: later ++ rest = mark :: operands ++ newline :: rest := by
    rw [whole]
    simp
  have uncounted : ∀ directive ∈ Session.lineDirective operands,
      directive.ofConditional = false := by
    cases operands with
    | nil => simp [Session.lineDirective]
    | cons _ operands =>
      cases whole
      exact other
  rw [shape]
  cases steps with
  | zero => exact zero
  | succ steps =>
    have line : LineRest [newline] := kind
    refine alone charted ?_
      (skippedRest charted ends ends' kind' line skipping (next.mono (Nat.le_succ steps)))
    intro session session' context given after last _ unstopped beside ran
    obtain ⟨spot, frames, frames', framed, files, rfl, moved⟩ := beside.exists_spot
    rw [Session.eq_poise files] at ran
    obtain ⟨rfl, rfl, rfl⟩ := Session.of_step_idle _ unstopped inside kind ends marks
      (skipping _ _ framed) uncounted ran
    exact ⟨rfl, rfl, rfl, moved framed⟩

end Upholds

/-- Directives of lines reach no conditionals around them that differ. It is known how many others
are open after the lines. -/
def Admitted (tails : Option (List Conditional × List Conditional)) :
    (depth : Nat) → List (Option Directive) → (last : Nat) → Prop
  | depth, [], last => depth = last
  | depth, directive :: rest, last =>
    (∀ found ∈ directive, found.reaches = true → tails = none ∨ 0 < depth) ∧
      Admitted tails (deepenBy directive depth) rest last

section Lines

variable {fuel : Nat} {known : Session → Context → Prop} {steps : Nat}
  (charted : Charted fuel known) {file : String} {number : Nat}

include charted

theorem Upholds.skippedLine {line : List Char} {rest rest' : List Token} {levels' : List Bool}
    (clean : Clean line) (ends : Terminated rest) (ends' : Terminated rest')
    (proper : nestBy (lineDirective? line) levels = some levels')
    (next : Upholds fuel known steps (Poised (Skips levels') rest rest')) :
    Upholds fuel known steps (Poised (Skips levels) (fullLine file number line ++ rest)
      (fullLine file number [] ++ rest')) := by
  rw [fullLine_nil, List.singleton_append]
  have kind' : (lineEnd file number []).kind = .newline := kind_lineEnd
  have skipping : ∀ frames frames', Skips levels frames frames' →
      Conditional.isSkipping frames = true := fun _ _ skips => skips.isSkipping
  rcases fullLine_cases clean with ⟨inside, none⟩ | ⟨mark, name, later, whole, marks, inside, names⟩
  · rw [none] at proper
    cases proper
    exact skippedRest charted ends ends' kind' inside skipping next
  · rw [whole]
    rw [← names] at proper
    by_cases counts : ∃ directive, name.directive? = some directive ∧ directive.ofConditional = true
    · obtain ⟨directive, named, counts⟩ := counts
      rw [named] at proper
      exact directiveLine charted ends ends' kind' marks inside named counts
        (fun _ _ _ _ _ _ _ _ _ _ skips silent _ => silent (skips.turn counts proper).1)
        (fun name _ _ after skips => (skips.turn counts proper).2 name after) next
    · have other : ∀ directive ∈ name.directive?, directive.ofConditional = false := by
        intro directive among
        by_contra of
        exact counts ⟨directive, among, by simpa using of⟩
      rw [nestBy_of_other other] at proper
      cases proper
      exact otherLine charted ends ends' kind' marks inside other skipping next

/-- Sessions that stand before lines with the same number go on alike. -/
abbrev UpholdsLines (fuel : Nat) (known : Session → Context → Prop) (steps : Nat) (file : String)
    (framing : List Conditional → List Conditional → Prop) (number : Nat)
    (lines lines' : List (List Char)) : Prop :=
  Upholds fuel known steps (Poised framing (tokensFrom file number lines)
    (tokensFrom file number lines'))

variable {body more more' : List (List Char)} (clean : ∀ line ∈ body, Clean line)
  (cleanMore : ∀ line ∈ more, Clean line) (cleanMore' : ∀ line ∈ more', Clean line)
  (nonempty : more ≠ []) (nonempty' : more' ≠ [])

include clean cleanMore cleanMore' nonempty nonempty'

/-- **Lines that are skipped leave nothing**: empty lines do as well. -/
theorem Upholds.skipped (nested : Nested levels (body.map lineDirective?))
    (next : UpholdsLines fuel known steps file (Skips []) (number + body.length) more more') :
    UpholdsLines fuel known steps file (Skips levels) number (body ++ more)
      (body.map (fun _ => []) ++ more') := by
  induction body generalizing number levels with
  | nil =>
    cases nested
    exact next
  | cons line body ih =>
    obtain ⟨here, clean⟩ := List.forall_mem_cons.mp clean
    obtain ⟨levels', proper, nested⟩ := nested
    have empty : ∀ line ∈ body.map fun _ => ([] : List Char), Clean line := by
      simp only [List.mem_map]
      rintro _ ⟨_, _, rfl⟩
      exact clean_nil
    have rest : body ++ more ≠ [] := List.append_ne_nil_of_right_ne_nil _ nonempty
    have rest' : body.map (fun _ => []) ++ more' ≠ [] :=
      List.append_ne_nil_of_right_ne_nil _ nonempty'
    rw [UpholdsLines, List.map_cons, List.cons_append, List.cons_append, tokensFrom_cons rest,
      tokensFrom_cons rest']
    refine skippedLine charted here
      (terminated_tokensFrom rest (List.forall_mem_append.mpr ⟨clean, cleanMore⟩))
      (terminated_tokensFrom rest' (List.forall_mem_append.mpr ⟨empty, cleanMore'⟩)) proper
      (ih clean nested ?_)
    rwa [List.length_cons, ← Nat.add_assoc, Nat.add_right_comm] at next

/-- **Lines are gone through in lockstep**, when what follows them is known to go well. -/
theorem Upholds.lines {tails : Option (List Conditional × List Conditional)} {depth last : Nat}
    (shown : ∀ {tail tail'}, tails = .some (tail, tail') →
      Conditional.isSkipping tail' = Conditional.isSkipping tail)
    (admitted : Admitted tails depth (body.map lineDirective?) last)
    (next : UpholdsLines fuel known steps file (Framing tails last)
      (number + body.length) more more') :
    UpholdsLines fuel known steps file (Framing tails depth) number (body ++ more)
      (body ++ more') := by
  induction body generalizing number depth with
  | nil =>
    cases admitted
    exact next
  | cons line body ih =>
    obtain ⟨here, clean⟩ := List.forall_mem_cons.mp clean
    obtain ⟨reaches, admitted⟩ := admitted
    have rest : body ++ more ≠ [] := List.append_ne_nil_of_right_ne_nil _ nonempty
    have rest' : body ++ more' ≠ [] := List.append_ne_nil_of_right_ne_nil _ nonempty'
    rw [List.length_cons, ← Nat.add_assoc, Nat.add_right_comm] at next
    have next := ih clean admitted next
    rw [← directiveOn_fullLine file number] at reaches next
    rw [UpholdsLines, List.cons_append, List.cons_append, tokensFrom_cons rest,
      tokensFrom_cons rest']
    exact wholeLine charted
      (terminated_tokensFrom rest (List.forall_mem_append.mpr ⟨clean, cleanMore⟩))
      (terminated_tokensFrom rest' (List.forall_mem_append.mpr ⟨clean, cleanMore'⟩)) shown
      (whole_of_clean here) reaches next

end Lines

end Preproc
