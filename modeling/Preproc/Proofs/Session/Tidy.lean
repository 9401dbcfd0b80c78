import Preproc.Proofs.Session.Faithful
import Preproc.Proofs.Session.Tables

/-! # The macros of a quiet run

A run without diagnostics leaves macros that can be written on a line and read back: their names are
identifiers, their bodies were stretches of lines and are cut apart where they were, and nothing was
complained about when they were defined.

Main statement: `tidy_of_preprocessWithin`.
-/

namespace Preproc

open Source

variable {context : Context} {includes : IncludeSystem}

theorem Run.reached_of_preprocessWithin {fuel : Nat} {options : Options} {source file : String}
    {result : Result}
    (ran : preprocessWithin fuel options includes source file = .ok result context) :
    ∃ session texts, Reached ⟨session, context, texts⟩ := by
  obtain ⟨tokens, session, middle, pushed, after, read, _⟩ := of_preprocessWithin ran
  exact ⟨after, exists_reached (((Session.Arises.start options includes).push pushed).readAll read)⟩

/-- Whether the macros of a table are given by stretches of lines. -/
def MacroTable.Given (table : MacroTable) : Prop :=
  ∀ entry ∈ table.entries, entry.definition.isBuiltin = false →
    entry.definition.GivenBy Macro.Inscribed

theorem MacroTable.Becomes.given {table table' : MacroTable} (becomes : table.Becomes table')
    (given : table.Given) : table'.Given := by
  rcases becomes with rfl | edits
  · exact given
  · intro entry member plain
    cases edits with
    | define here free =>
      rcases mem_of_mem_insert member with rfl | before
      · exact here
      · exact given entry before plain
    | undefine free => exact given entry (List.mem_of_mem_filter member) plain

theorem Run.Reached.given {run : Run} (reached : run.Reached) : run.context.table.Given := by
  induction reached with
  | created created =>
    have builtin : ∀ entry ∈ MacroTable.initial.entries, entry.definition.isBuiltin = true := by
      decide +kernel
    rw [(Session.of_create created).2]
    intro entry member plain
    rw [builtin entry member] at plain
    cases plain
  | goes reached goes ih => exact (goes.advances reached.sane).1.given ih

/-- What holds of every macro that a definition line gives: its names are identifiers, its body can
be read where it is spelled, and its ops are those of its body. -/
structure Macro.Legible (definition : Macro) : Prop where
  name : Shape .identifier definition.name.toList
  parameters : ∀ name ∈ definition.parameters.map (·.name), Shape .identifier name.toList
  bare : definition.isFunctionLike = false → definition.parameters = []
  within : Fitting (· ≠ .directive) definition.body
  body : Token.Legible definition.body
  ops : definition.ops = (Op.compile (firstIndex (definition.parameters.map (·.name)))
    definition.isFunctionLike definition.body).ops

theorem Run.Reached.legible {run : Run} (reached : run.Reached) {entry : Macro.Entry}
    (member : entry ∈ run.context.table.entries) (plain : entry.definition.isBuiltin = false) :
    entry.definition.Legible := by
  obtain ⟨⟨⟨left, stretch, near⟩, named⟩, _, parameters, _, _, built⟩ :=
    reached.given entry member plain
  obtain ⟨name, declares⟩ := List.forall_mem_cons.mp named
  obtain ⟨declared, flavor⟩ := Macro.parameters_of_build built
  obtain ⟨sameBody, ops⟩ := Macro.ops_of_build built
  refine ⟨name, declares, fun bare => ?_, Fitting.near stretch.1 near, stretch.legible.2.near near,
    ?_⟩
  · rw [flavor, Option.isSome_eq_false_iff, Option.isNone_iff_eq_none] at bare
    rw [declared, bare]
    rfl
  · rw [ops, declared, flavor, sameBody]
    rfl

/-- A macro that can be written on a line of its own. -/
structure Macro.Tidy (definition : Macro) : Prop extends definition.Presentable,
    definition.Legible where
  variadic : ∀ parameter ∈ definition.parameters.dropLast, parameter.variadic = false
  shaped : ∀ token ∈ definition.body, token.Shaped
  unbroken : ∀ token ∈ definition.body, token.Unbroken
  separate : Token.Separate definition.body

/-- **The macros of a quiet run** can be written on lines of their own. -/
theorem tidy_of_preprocessWithin {fuel : Nat} {options : Options}
    {source file : String} {result : Result}
    (ran : preprocessWithin fuel options includes source file = .ok result context)
    (quiet : result.diagnostics = []) :
    context.table.Ordered ∧ ∀ entry ∈ context.table.entries,
      entry.definition.isBuiltin = false → entry.definition.Tidy := by
  obtain ⟨session, texts, reached⟩ := Run.reached_of_preprocessWithin ran
  refine ⟨reached.wellFormed.1, fun entry member plain => ?_⟩
  obtain ⟨⟨scannable, _⟩, presentable⟩ := (kept_of_preprocessWithin ran quiet).1 entry member
  obtain ⟨⟨⟨left, stretch, near⟩, _⟩, _⟩ := reached.given entry member plain
  have legible := reached.legible member plain
  have unbroken : ∀ token ∈ entry.definition.body, token.Unbroken := by
    refine near.forall_mem (fun near unbroken => ?_) stretch.unbroken
    unfold Token.Unbroken
    rwa [near.lexeme]
  refine ⟨presentable plain, legible, (reached.wellFormed.2.defined entry member plain).variadic,
    ?_,
    unbroken, stretch.legible.1.near near⟩
  intro token member
  obtain ⟨inside, noDirective⟩ := legible.within token member
  refine ⟨(scannable token member).2 inside noDirective (unbroken token member), ?_⟩
  intro newline
  simp [Token.endsLine, newline] at inside

end Preproc
