import Preproc.Proofs.Session.Runs

/-! # Frames of conditionals

The open conditionals of a file, its frames, are followed through a run. A frame is found by the
level of its file, counted from the first file pushed, and by its depth in the file, counted from
the outermost frame. It lives from the line that opens it to the one that closes it, and a line of
its own turns it from one branch to the next.

Main statement: `frames_of_reached`.
-/

namespace Preproc

variable {frames : List Conditional} {index depth : Nat} {frames' : List Conditional}
  {frame' : Conditional} {file : InputFile}

theorem Chained.parentActive (chained : Chained frames)
    {frame : Conditional} (found : frames[index]? = some frame) :
    frame.parentActive = (frames[index + 1]?.map (·.active)).getD true := by
  induction frames generalizing index with
  | nil => cases found
  | cons first outer ih =>
    cases index with
    | zero =>
      cases found
      rw [chained.1]
      cases outer <;> simp [Conditional.isSkipping]
    | succ index => exact ih chained.2.2 found

theorem Chained.active (chained : Chained frames) : ∀ frame ∈ frames, frame.active = true →
      frame.parentActive = true ∧ frame.branchTaken = true := by
  induction frames with
  | nil => simp
  | cons first outer ih => exact List.forall_mem_cons.mpr ⟨chained.2.1, ih chained.2.2⟩

/-! ### Following a frame -/

/-- The frame at a level and a depth, both counted from the outside. -/
def frameAt (frames : List (List Conditional)) (level depth : Nat) : Option Conditional :=
  frames.reverse[level]?.bind (·.reverse[depth]?)

/-- Whether a line turns the frame at a level and a depth to its next branch: the frame is the
innermost one of the file being read. -/
def TurnsAt (directive : Option Directive) (frames : List (List Conditional)) (level depth : Nat) :
    Prop :=
  (directive = some .elseIf ∨ directive = some .otherwise) ∧
    ∃ top below, frames = top :: below ∧ below.length = level ∧ top.length = depth + 1

theorem getElem?_reverse_cons {α : Type} {inner found : α} {outer : List α} :
    (inner :: outer).reverse[index]? = some found ↔
      outer.reverse[index]? = some found ∨ index = outer.length ∧ found = inner := by
  rw [List.reverse_cons]
  rcases Nat.lt_or_ge index outer.reverse.length with inside | outside
  · have short : index ≠ outer.length := by
      rw [List.length_reverse] at inside
      exact Nat.ne_of_lt inside
    rw [List.getElem?_append_left inside]
    simp [short]
  · rw [List.getElem?_append_right outside, List.getElem?_eq_none outside, List.length_reverse]
    rw [List.length_reverse] at outside
    rw [List.getElem?_singleton]
    split
    next last =>
      have last : index = outer.length := by omega
      simp [last, eq_comm]
    next longer =>
      have longer : index ≠ outer.length := by omega
      simp [longer]

theorem getElem?_reverse_append {α : Type} {outer : List α} {found : α}
    (there : outer.reverse[index]? = some found) (inner : List α) :
    (inner ++ outer).reverse[index]? = some found := by
  induction inner with
  | nil => exact there
  | cons first inner ih => exact getElem?_reverse_cons.mpr (.inl ih)

theorem Turns.frame {name : Token} {directive : Directive}
    (turned : Turns name directive frames frames') {frame : Conditional}
    (before : frames.reverse[depth]? = some frame) (after : frames'.reverse[depth]? = some frame') :
    if (directive = .elseIf ∨ directive = .otherwise) ∧ frames.length = depth + 1
      then frame.GoesOn frame' else frame' = frame := by
  have short : depth < frames.length := by
    simpa using (List.getElem?_eq_some_iff.mp before).1
  have opened {enabled : Bool}
      (after : (Conditional.opened name (!Conditional.isSkipping frames) enabled ::
        frames).reverse[depth]? = some frame') : frame' = frame := by
    rcases getElem?_reverse_cons.mp after with still | ⟨new, _⟩
    · exact Option.some.inj (still.symm.trans before)
    · exact absurd new (Nat.ne_of_lt short)
  have goesOn {first next : Conditional} {outer : List Conditional} (goesOn : first.GoesOn next)
      (before : (first :: outer).reverse[depth]? = some frame)
      (after : (next :: outer).reverse[depth]? = some frame') :
      if (first :: outer).length = depth + 1 then frame.GoesOn frame' else frame' = frame := by
    rcases getElem?_reverse_cons.mp before with inside | ⟨last, rfl⟩
    · have short : depth < outer.length := by
        simpa using (List.getElem?_eq_some_iff.mp inside).1
      rw [if_neg (by simp; omega)]
      rcases getElem?_reverse_cons.mp after with still | ⟨last, _⟩
      · exact Option.some.inj (still.symm.trans inside)
      · exact absurd last (Nat.ne_of_lt short)
    · rw [if_pos (by simp [last])]
      rcases getElem?_reverse_cons.mp after with still | ⟨_, rfl⟩
      · have short : depth < outer.length := by
          simpa using (List.getElem?_eq_some_iff.mp still).1
        exact absurd last (Nat.ne_of_lt short)
      · exact goesOn
  cases directive with
  | ifTrue | ifDefined | ifNotDefined =>
    obtain ⟨enabled, rfl⟩ := turned
    simpa using opened after
  | elseIf | otherwise =>
    cases frames with
    | nil => cases before
    | cons first outer =>
      obtain ⟨next, goes, rfl⟩ := turned.goesOn (by simp)
      simpa using goesOn goes before after
  | endIf =>
    cases frames with
    | nil => cases before
    | cons first outer =>
      cases turned
      have still : (first :: outer).reverse[depth]? = some frame' :=
        getElem?_reverse_cons.mpr (.inl after)
      simpa using Option.some.inj (still.symm.trans before)
  | _ =>
    cases turned
    simpa using Option.some.inj (after.symm.trans before)

theorem TurnedBy.frame {left : List Token}
    (turned : TurnedBy left frames frames') {frame : Conditional}
    (before : frames.reverse[depth]? = some frame) (after : frames'.reverse[depth]? = some frame') :
    if (Session.lineDirective left = some .elseIf ∨ Session.lineDirective left = some .otherwise) ∧
      frames.length = depth + 1 then frame.GoesOn frame' else frame' = frame := by
  have same (unchanged : frames' = frames) : frame' = frame := by
    subst unchanged
    exact Option.some.inj (after.symm.trans before)
  cases left with
  | nil => simpa [Session.lineDirective] using same turned
  | cons first left =>
    rcases turned.cases with ⟨unknown, unchanged⟩ | ⟨directive, map, known, turned⟩
    · simpa [Session.lineDirective, unknown] using same unchanged
    · simpa [Session.lineDirective, known] using turned.frame before after

theorem FramesStep.frame {directive : Option Directive} {frames frames' : List (List Conditional)}
    (step : FramesStep directive frames frames') {level : Nat} {frame : Conditional}
    (before : frameAt frames level depth = some frame)
    (after : frameAt frames' level depth = some frame') :
    (TurnsAt directive frames level depth → frame.GoesOn frame') ∧
      (¬ TurnsAt directive frames level depth → frame' = frame) := by
  obtain ⟨file, placed, found⟩ := Option.bind_eq_some_iff.mp before
  obtain ⟨file', placed', found'⟩ := Option.bind_eq_some_iff.mp after
  have constant (same : file' = file) : frame' = frame := by
    subst same
    exact Option.some.inj (found'.symm.trans found)
  have untaken {frames : List (List Conditional)} : ¬ TurnsAt none frames level depth := by
    simp [TurnsAt]
  cases step with
  | stays =>
    have same := Option.some.inj (placed'.symm.trans placed)
    exact ⟨fun turns => absurd turns untaken, fun _ => constant same⟩
  | closes => cases placed'
  | leaves =>
    have same := Option.some.inj ((getElem?_reverse_cons.mpr (.inl placed')).symm.trans placed)
    exact ⟨fun turns => absurd turns untaken, fun _ => constant same⟩
  | opens count =>
    have same := Option.some.inj (placed'.symm.trans (getElem?_reverse_append placed _))
    exact ⟨fun turns => absurd turns untaken, fun _ => constant same⟩
  | @turns top top' below left turned count =>
    rcases getElem?_reverse_cons.mp placed with under | ⟨rfl, rfl⟩
    · have same := Option.some.inj (placed'.symm.trans
        (getElem?_reverse_append (getElem?_reverse_cons.mpr (.inl under)) _))
      refine ⟨?_, fun _ => constant same⟩
      rintro ⟨_, _, _, ⟨⟩, rfl, _⟩
      have short := (List.getElem?_eq_some_iff.mp under).1
      simp at short
    · have same := Option.some.inj (placed'.symm.trans
        (getElem?_reverse_append (getElem?_reverse_cons.mpr (.inr ⟨rfl, rfl⟩)) _))
      subst same
      have turned := turned.frame found found'
      constructor
      · rintro ⟨named, _, _, ⟨⟩, _, innermost⟩
        rwa [if_pos ⟨named, innermost⟩] at turned
      · intro other
        rwa [if_neg fun own => other ⟨own.1, file, below, rfl, rfl, own.2⟩] at turned

namespace Run

/-- A frame lives: it was opened at a level and a depth, and stands there ever since. The branches
that have begun are told by whether they are active, the present one first. -/
inductive Lives (level depth : Nat) : (branches : List Bool) → Run → Prop
  | opens {run next : Run} {frame : Conditional} (reached : run.Reached)
      (free : frameAt run.session.frames level depth = none) (goes : run.Goes next)
      (found : frameAt next.session.frames level depth = some frame) :
      Lives level depth [frame.active] next
  | stays {branches : List Bool} {run next : Run} {frame : Conditional}
      (lives : Lives level depth branches run) (goes : run.Goes next)
      (found : frameAt next.session.frames level depth = some frame)
      (other : ¬ ((∃ fuel, run.step? fuel = some next) ∧
        TurnsAt run.session.directive? run.session.frames level depth)) :
      Lives level depth branches next
  | turns {branches : List Bool} {run next : Run} {frame : Conditional} {fuel : Nat}
      (lives : Lives level depth branches run) (stepped : run.step? fuel = some next)
      (turns : TurnsAt run.session.directive? run.session.frames level depth)
      (found : frameAt next.session.frames level depth = some frame) :
      Lives level depth (frame.active :: branches) next

variable {run next : Run} {level depth : Nat} {branches : List Bool}

theorem Sane.branchTaken (sane : run.Sane) {frame : Conditional}
    (found : frameAt run.session.frames level depth = some frame) (active : frame.active = true) :
    frame.branchTaken = true := by
  obtain ⟨frames, placed, found⟩ := Option.bind_eq_some_iff.mp found
  obtain ⟨file, member, rfl⟩ := List.mem_map.mp (List.mem_reverse.mp (List.mem_of_getElem? placed))
  obtain ⟨text, reads⟩ := sane.exists_text member
  exact (reads.chained.active frame (List.mem_reverse.mp (List.mem_of_getElem? found)) active).2

/-- **At most one branch of a frame is ever active.** -/
theorem Lives.once (lives : Lives level depth branches run) : run.Reached ∧ ∃ frame,
    frameAt run.session.frames level depth = some frame ∧ branches.head? = some frame.active ∧
      (true ∈ branches → frame.branchTaken = true) ∧ branches.count true ≤ 1 := by
  induction lives with
  | @opens run next frame reached free goes found =>
    have reached := reached.goes goes
    refine ⟨reached, frame, found, rfl, fun taken => ?_, ?_⟩
    · exact reached.sane.branchTaken found (List.mem_singleton.mp taken).symm
    · cases frame.active <;> decide
  | @stays branches run next frame lives goes found other ih =>
    obtain ⟨reached, before, found', head, taken, once⟩ := ih
    obtain ⟨_, _, frames⟩ := goes.advances reached.sane
    have same : frame = before := by
      rcases frames with frames | ⟨stepped, frames⟩
      · exact (frames.frame found' found).2 (by simp [TurnsAt])
      · exact (frames.frame found' found).2 fun turns => other ⟨stepped, turns⟩
    subst same
    exact ⟨reached.goes goes, frame, found, head, taken, once⟩
  | @turns branches run next frame fuel lives stepped turns found ih =>
    obtain ⟨reached, before, found', head, taken, once⟩ := ih
    obtain ⟨_, _, frames⟩ := reached.sane.step? stepped
    have goesOn := (frames.frame found' found).1 turns
    refine ⟨reached.goes (.step fuel stepped), frame, found, rfl, ?_⟩
    cases active : frame.active with
    | false => exact ⟨by simpa using fun member => goesOn.branchTaken (taken member), by simpa⟩
    | true =>
      obtain ⟨_, untaken, now⟩ := goesOn.active active
      have noTrue : true ∉ branches := fun member => by
        rw [taken member] at untaken
        cases untaken
      exact ⟨fun _ => now, by simp [List.count_eq_zero_of_not_mem noTrue]⟩

end Run

/-! ### The end of a file -/

/-- The diagnostics about a frame that is open where its file ends. -/
def Conditional.unfinished (sink : Sink) (finish : Location) (frame : Conditional) :
    List Diagnostic :=
  [sink.diagnosticOf finish .endOfFileInConditional,
    sink.diagnosticOf frame.directive.location (.seeDirective frame.directive.lexeme)]

namespace Session

theorem exists_reportOpen (finish : Token) (frames : List Conditional) (session : Session)
    (context : Context) : ∃ next, reportOpen finish frames session context =
      .ok ((), session) next ∧
      next.sink.warnAsError = context.sink.warnAsError ∧
      context.Tells next (frames.flatMap (·.unfinished context.sink finish.location)) := by
  induction frames generalizing context with
  | nil => exact ⟨context, rfl, rfl, by simp [Context.Tells]⟩
  | cons frame outer ih =>
    let first := context.sink.diagnosticOf finish.location .endOfFileInConditional
    let second := context.sink.diagnosticOf frame.directive.location
      (.seeDirective frame.directive.lexeme)
    let told : Context :=
      { context with
        sink := (context.sink.record first).record second
        events := (context.events.push (.reported first)).push (.reported second) }
    obtain ⟨next, ran, warns, tells⟩ := ih told
    refine ⟨next, ran, warns, ?_⟩
    unfold Context.Tells at tells ⊢
    rw [tells]
    simp [told, first, second, Sink.record, Conditional.unfinished, Sink.diagnosticOf,
      Sink.severityOf]

/-- **A file is left at its end**, unless the limit on errors stops the session, with a report on
each frame that is open, innermost first. -/
theorem exists_step_leaves {session : Session} {context : Context}
    {below : List InputFile} (fuel : Nat) (opened : session.files = file :: below)
    (ended : file.stream.head.isEof = true) (goesOn : stops session context = false) :
    ∃ after next, step fuel session context = .ok (none, after) next ∧ after.files = below ∧
      context.Tells next
        (file.conditionals.flatMap (·.unfinished context.sink file.stream.head.location)) := by
  obtain ⟨next, ran, _, tells⟩ :=
    exists_reportOpen file.stream.head file.conditionals session context
  have leaves : ∃ after, leaveFile session context = .ok ((), after) next ∧ after.files =
    below := by
    rw [leaveFile_of_files opened]
    exact ⟨_, bind_ok_iff.mpr ⟨(), session, next, ran, rfl⟩, rfl⟩
  obtain ⟨after, leaves, files⟩ := leaves
  refine ⟨after, next, ?_, files, tells⟩
  rw [step_of_files fuel opened goesOn, stepIn, if_pos ended]
  exact bind_ok_iff.mpr ⟨(), after, next, leaves, rfl⟩

end Session

/-- What the text of a file tells about its frames: they are named by the lines that are unmatched
in what the scanner of the file has taken of its text. -/
def InputFile.Nests (file : InputFile) (text : String) : Prop :=
  ∃ expansion uppers scanner front, file.stream = .expansion expansion ∧
    expansion.sources = uppers ++ [.scanner scanner] ∧
    scanTokens file.path text = front ++ scanner.left ∧
    NamedBy file.conditionals (unmatched front)

theorem InputFile.Reads.nests {text : String} (reads : file.Reads text) : file.Nests text := by
  obtain ⟨expansion, stream, origin, uppers, scanner, front, sources, read⟩ := reads.grounded
  exact ⟨expansion, uppers, scanner, front, stream, sources, read.split, read.taken⟩

theorem NamedBy.reports {opened : List Token}
    (named : NamedBy frames opened) (sink : Sink) (finish : Location) :
    (frames.flatMap (·.unfinished sink finish)).map
        (fun diagnostic => (diagnostic.severity, diagnostic.code)) =
      opened.flatMap fun _ => [(.error, some "PPS-PP-0107"), (.note, some "PPS-PP-0108")] := by
  induction named with
  | nil => rfl
  | cons _ _ ih =>
    rw [List.flatMap_cons, List.map_append, ih]
    rfl

theorem InputFile.Reads.named_of_ended {text : String} (reads : file.Reads text)
    (ended : file.stream.head.isEof = true) :
    NamedBy file.conditionals (unmatched (scanTokens file.path text)) := by
  obtain ⟨expansion, stream, origin, uppers, scanner, front, sources, read⟩ := reads.grounded
  rw [stream] at ended
  obtain ⟨rfl, last⟩ := read.ended ended
  have split : scanTokens file.path text = front ++ scanner.left := read.split
  have ends : Terminated (front ++ scanner.left) := split ▸ terminated_scanTokens
  have only : scanner.left = [scanner.lookahead] := by
    have ends := ends.suffix (by simp [Scanner.left])
    unfold Scanner.left at ends ⊢
    cases pending : scanner.pending.map (·.token) with
    | nil => rfl
    | cons next later =>
      rw [pending] at ends
      rw [ends.1] at last
      cases last
  have taken : NamedBy file.conditionals (unmatched front) := read.taken
  rwa [split, only, unmatched_concat_of_endsLine (by simp [Token.endsLine, beq_iff_eq.mp last])]

end Preproc
