import Preproc.Proofs.Session.OwnLine

/-! # Open conditionals and the lines that opened them

The open conditionals of a file hang together: each knows whether the lines around it are active,
and its branch is active only if they are. Which conditionals are open is known from the names of
the directives alone: `unmatched` tells it from the tokens of a file, as far as they have been
taken.

What a directive line makes of the open conditionals keeps both.
-/

namespace Preproc

/-- Open conditionals, innermost first, that hang together. -/
def Chained : List Conditional → Prop
  | [] => True
  | frame :: outer => frame.parentActive = !Conditional.isSkipping outer ∧
    (frame.active = true → frame.parentActive = true ∧ frame.branchTaken = true) ∧ Chained outer

variable {frames : List Conditional} {left front : List Token}

theorem Chained.isSkipping_eq_false_iff (chained : Chained frames) :
    Conditional.isSkipping frames = false ↔ ∀ frame ∈ frames, frame.active = true := by
  induction frames with
  | nil => simp [Conditional.isSkipping]
  | cons frame outer ih =>
    obtain ⟨around, active, chained⟩ := chained
    constructor
    · intro runs
      have here : frame.active = true := by simpa [Conditional.isSkipping] using runs
      have outside : Conditional.isSkipping outer = false := by
        simpa [around] using (active here).1
      exact List.forall_mem_cons.mpr ⟨here, (ih chained).mp outside⟩
    · intro all
      simp [Conditional.isSkipping, all frame List.mem_cons_self]

theorem Chained.goesOn {frame next : Conditional} {outer : List Conditional}
    (chained : Chained (frame :: outer)) (goesOn : frame.GoesOn next) :
      Chained (next :: outer) := by
  refine ⟨goesOn.parentActive.trans chained.1, fun active => ?_, chained.2.2⟩
  obtain ⟨around, _, taken⟩ := goesOn.active active
  exact ⟨goesOn.parentActive.trans around, taken⟩

theorem Chained.turned {name : Token} {directive : Directive} {frames frames' : List Conditional}
    (chained : Chained frames) (turned : Turns name directive frames frames') :
      Chained frames' := by
  have opens (enabled : Bool) :
      Chained (.opened name (!Conditional.isSkipping frames) enabled :: frames) :=
    ⟨rfl, by simp [Conditional.opened], chained⟩
  have closes : Chained frames.tail := by
    cases frames with
    | nil => trivial
    | cons frame outer => exact chained.2.2
  cases directive with
  | ifTrue | ifDefined | ifNotDefined =>
    obtain ⟨enabled, rfl⟩ := turned
    exact opens enabled
  | elseIf | otherwise =>
    cases frames with
    | nil => exact turned ▸ chained
    | cons frame outer =>
      obtain ⟨next, goesOn, rfl⟩ := turned.goesOn (by simp)
      exact chained.goesOn goesOn
  | endIf => exact turned ▸ closes
  | _ => exact turned ▸ chained

variable {frames' : List Conditional}

theorem TurnedBy.cases {first : Token} (turned : TurnedBy (first :: left) frames frames') :
    (first.directive? = none ∧ frames' = frames) ∨ ∃ directive map,
      first.directive? = some directive ∧ Turns (presume map first) directive frames frames' := by
  simp only [TurnedBy] at turned
  cases known : first.directive? with
  | none =>
    rw [known] at turned
    exact .inl ⟨rfl, turned⟩
  | some directive =>
    rw [known] at turned
    obtain ⟨map, turned⟩ := turned
    exact .inr ⟨directive, map, rfl, turned⟩

theorem Chained.turnedBy
    (chained : Chained frames) (turned : TurnedBy left frames frames') : Chained frames' := by
  cases left with
  | nil => exact turned ▸ chained
  | cons first left =>
    rcases turned.cases with ⟨_, rfl⟩ | ⟨directive, map, _, turned⟩
    · exact chained
    · exact chained.turned turned

/-! ### Unmatched lines -/

/-- What the token after a `#` makes of the lines that are unmatched, innermost first. -/
def openersAfter (name : Token) (opened : List Token) : List Token :=
  match name.directive? with
  | some directive =>
    if directive.opens then name :: opened
    else if directive = .endIf then opened.tail
    else opened
  | none => opened

/-- What is known of the nesting of conditionals when tokens have been taken: the names of the lines
that are unmatched, innermost first, and whether a directive was the last token. -/
structure Nesting where
  opened : List Token := []
  marked : Bool := false

/-- The nesting after one more token. -/
def Nesting.next (nesting : Nesting) (token : Token) : Nesting where
  opened := if nesting.marked then openersAfter token nesting.opened else nesting.opened
  marked := token.kind == .directive

def nestingOf (tokens : List Token) : Nesting :=
  tokens.foldl Nesting.next {}

/-- The names on the `#if`, `#ifdef` and `#ifndef` lines that no `#endif` line has matched,
innermost first. -/
def unmatched (tokens : List Token) : List Token :=
  (nestingOf tokens).opened

theorem nestingOf_concat (front : List Token) (token : Token) :
    nestingOf (front ++ [token]) = (nestingOf front).next token := by
  simp [nestingOf]

theorem marked_iff {tokens : List Token} : Marked tokens ↔ (nestingOf tokens).marked = true := by
  rcases List.eq_nil_or_concat tokens with rfl | ⟨front, last, rfl⟩
  · simp [Marked, nestingOf]
  · rw [List.concat_eq_append, marked_concat, nestingOf_concat]
    simp [Nesting.next]

theorem unmatched_concat (unmarked : ¬ Marked front) (token : Token) :
    unmatched (front ++ [token]) = unmatched front := by
  rw [marked_iff] at unmarked
  rw [unmatched, nestingOf_concat, Nesting.next, if_neg unmarked, unmatched]

theorem unmatched_concat_of_marked (marked : Marked front) (token : Token) :
    unmatched (front ++ [token]) = openersAfter token (unmatched front) := by
  rw [marked_iff] at marked
  rw [unmatched, nestingOf_concat, Nesting.next, if_pos marked, unmatched]

theorem unmatched_append {later : List Token} (unmarked : ¬ Marked front)
    (plain : ∀ token ∈ later, token.kind ≠ .directive) :
    unmatched (front ++ later) = unmatched front ∧ ¬ Marked (front ++ later) := by
  induction later generalizing front with
  | nil => simpa using unmarked
  | cons token later ih =>
    obtain ⟨here, plain⟩ := List.forall_mem_cons.mp plain
    have still : ¬ Marked (front ++ [token]) := fun marked => here (marked_concat.mp marked)
    have rest := ih still plain
    rw [List.append_assoc, List.singleton_append, unmatched_concat unmarked] at rest
    exact rest

/-- What a line makes of the unmatched ones, by the tokens after its `#`. -/
def openersBy : (left opened : List Token) → List Token
  | [], opened => opened
  | first :: _, opened => openersAfter first opened

theorem directive?_of_endsLine {token : Token} (ends : token.endsLine = true) :
    token.directive? = none := by
  cases named : token.isIdentifier with
  | false => simp [Token.directive?, named]
  | true => simp [goesOn_of_isIdentifier named] at ends

theorem unmatched_inside (marked : Marked front) (plain : ∀ token ∈ left, token.kind ≠ .directive) :
    unmatched (front ++ left) = openersBy left (unmatched front) := by
  cases left with
  | nil => rw [List.append_nil, openersBy]
  | cons first left =>
    obtain ⟨here, plain⟩ := List.forall_mem_cons.mp plain
    have unmarked : ¬ Marked (front ++ [first]) := fun marks => here (marked_concat.mp marks)
    have whole := (unmatched_append unmarked plain).1
    rwa [List.append_assoc, unmatched_concat_of_marked marked] at whole

theorem unmatched_concat_of_endsLine {ending : Token}
    (ends : ending.endsLine = true) : unmatched (front ++ [ending]) = unmatched front := by
  by_cases marked : Marked front
  · rw [unmatched_concat_of_marked marked]
    simp [openersAfter, directive?_of_endsLine ends]
  · exact unmatched_concat marked ending

/-- Open conditionals, innermost first, and the tokens that name them in the file. -/
def NamedBy (frames : List Conditional) (opened : List Token) : Prop :=
  List.Forall₂ (fun frame token => ∃ map, frame.directive = presume map token) frames opened

theorem NamedBy.tail {frames : List Conditional} {opened : List Token}
    (named : NamedBy frames opened) : NamedBy frames.tail opened.tail := by
  cases named with
  | nil => exact .nil
  | cons _ named => exact named

theorem NamedBy.turned {name : Token} {map : Option LineMap} {directive : Directive}
    {frames frames' : List Conditional} {opened : List Token} (named : NamedBy frames opened)
    (known : name.directive? = some directive)
    (turned : Turns (presume map name) directive frames frames') :
    NamedBy frames' (openersAfter name opened) := by
  have goesOn {frame next : Conditional} {outer : List Conditional} {opened : List Token}
      (goesOn : frame.GoesOn next) (named : NamedBy (frame :: outer) opened) :
      NamedBy (next :: outer) opened := by
    cases named with
    | cons here later => exact .cons (goesOn.directive ▸ here) later
  unfold openersAfter
  rw [known]
  cases directive with
  | ifTrue | ifDefined | ifNotDefined =>
    obtain ⟨enabled, rfl⟩ := turned
    exact .cons ⟨map, rfl⟩ named
  | elseIf | otherwise =>
    cases frames with
    | nil =>
      cases turned
      exact named
    | cons frame outer =>
      obtain ⟨next, goes, rfl⟩ := turned.goesOn (by simp)
      exact goesOn goes named
  | endIf =>
    cases turned
    exact named.tail
  | _ =>
    cases turned
    exact named

theorem NamedBy.turnedBy {opened : List Token} (named : NamedBy frames opened)
    (turned : TurnedBy left frames frames') : NamedBy frames' (openersBy left opened) := by
  cases left with
  | nil => exact turned ▸ named
  | cons first left =>
    rcases turned.cases with ⟨unknown, rfl⟩ | ⟨directive, map, known, turned⟩
    · simpa [openersBy, openersAfter, unknown] using named
    · exact named.turned known turned

end Preproc
