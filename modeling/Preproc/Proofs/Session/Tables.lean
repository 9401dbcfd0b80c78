import Mathlib.Data.String.Basic
import Preproc.Proofs.Session.Runs

/-! # The table of a session

In every state of a session the builtin macros are in force, each macro is found under its own name,
and playback finds all that the ops of a macro look up. A definition line that is refused leaves the
table as it was.

Main statement: `table_of_reached`.
-/

namespace Preproc

open Session (Directive.defines)

/-- A macro whose ops refer to its own body and parameters. -/
structure Macro.WellFormed (definition : Macro) : Prop where
  ops : definition.ops ≠ []
  within : ∀ op ∈ definition.ops, op.Within definition
  variadic : ∀ parameter ∈ definition.parameters.dropLast, parameter.variadic = false

theorem Macro.wellFormed_of_build {nameToken : Token} {parameters : Option (List Parameter)}
    {body : List Token} {endLocation : Location} {definition : Macro}
    (built : (build nameToken parameters body endLocation).1 = .ok definition) :
    definition.WellFormed := by
  obtain ⟨sameBody, sameOps⟩ := ops_of_build built
  obtain ⟨sameParameters, _⟩ := parameters_of_build built
  refine ⟨?_, ?_, ?_⟩
  · rw [sameOps]
    exact Op.compile_ops_ne_nil _ parameters.isSome body
  · intro op member
    apply within_of_placed
    rw [sameOps] at member
    rw [sameParameters, sameBody]
    exact Op.placed_compile _ _ body op member
  · intro parameter member
    have accepted : definition.checked = .ok definition := eq_of_checked built ▸ built
    unfold checked at accepted
    split at accepted
    · cases accepted
    split at accepted
    · cases accepted
    next missing => simpa using List.find?_eq_none.mp missing parameter member

namespace MacroTable

def Ordered (table : MacroTable) : Prop :=
  table.entries.Pairwise (·.name < ·.name)

variable {entry : Macro.Entry} {entries : List Macro.Entry}

theorem mem_insert_of_ne {other : Macro.Entry}
    (member : other ∈ entries) (differs : other.name ≠ entry.name) :
    other ∈ insert entry entries := by
  fun_induction insert entry entries with
  | case1 => cases member
  | case2 first rest same =>
    rcases List.mem_cons.mp member with rfl | later
    · exact absurd same.symm differs
    · exact List.mem_cons_of_mem _ later
  | case3 first rest _ before => exact List.mem_cons_of_mem _ member
  | case4 first rest _ after ih =>
    rcases List.mem_cons.mp member with rfl | later
    · exact List.mem_cons_self
    · exact List.mem_cons_of_mem _ (ih later)

theorem pairwise_insert (ordered : entries.Pairwise (·.name < ·.name)) :
    (insert entry entries).Pairwise (·.name < ·.name) := by
  fun_induction insert entry entries with
  | case1 => exact List.pairwise_singleton _ _
  | case2 first rest same =>
    obtain ⟨smallest, ordered⟩ := List.pairwise_cons.mp ordered
    refine List.pairwise_cons.mpr ⟨fun other member => ?_, ordered⟩
    rw [same]
    exact smallest other member
  | case3 first rest differs before =>
    obtain ⟨smallest, _⟩ := List.pairwise_cons.mp ordered
    refine List.pairwise_cons.mpr ⟨fun other member => ?_, ordered⟩
    rcases List.mem_cons.mp member with rfl | later
    · exact before
    · exact before.trans (smallest other later)
  | case4 first rest differs after ih =>
    obtain ⟨smallest, ordered⟩ := List.pairwise_cons.mp ordered
    refine List.pairwise_cons.mpr ⟨fun other member => ?_, ih ordered⟩
    rcases mem_of_mem_insert member with rfl | later
    · exact lt_of_le_of_ne (not_lt.mp after) (Ne.symm differs)
    · exact smallest other later

variable {table table' : MacroTable}

theorem Ordered.inForce (ordered : table.Ordered)
    (member : entry ∈ table.entries) : table.InForce entry := by
  unfold Ordered at ordered
  unfold InForce entry?
  generalize table.entries = entries at ordered member
  induction entries with
  | nil => cases member
  | cons first rest ih =>
    obtain ⟨smallest, ordered⟩ := List.pairwise_cons.mp ordered
    rcases List.mem_cons.mp member with rfl | later
    · simp
    · rw [List.find?_cons_of_neg (by simpa using (smallest entry later).ne)]
      exact ih ordered later

/-- A table of a session. -/
structure WellFormed (table : MacroTable) : Prop where
  line : table.lookup "__LINE__" = some .lineBuiltin
  file : table.lookup "__FILE__" = some .fileBuiltin
  named : ∀ entry ∈ table.entries, table.InForce entry
  defined : ∀ entry ∈ table.entries, entry.definition.isBuiltin = false →
    entry.definition.WellFormed

theorem Becomes.lookup_builtin (becomes : table.Becomes table') (ordered : table'.Ordered)
    {name : String} {definition : Macro} (builtin : definition.isBuiltin = true)
    (found : table.lookup name = some definition) : table'.lookup name = some definition := by
  obtain ⟨entry, listed, rfl⟩ := Option.map_eq_some_iff.mp found
  have named : entry.name = name := by simpa using List.find?_some listed
  have member : entry ∈ table.entries := List.mem_of_find?_eq_some listed
  subst named
  have other {edited : String} (free : table.Free edited) : entry.name ≠ edited := by
    rintro rfl
    have plain : entry.definition.isBuiltin = false := free _ found
    rw [builtin] at plain
    cases plain
  have still : entry ∈ table'.entries := by
    rcases becomes with rfl | edits
    · exact member
    · cases edits with
      | define given free => exact mem_insert_of_ne member (other free)
      | undefine free => exact List.mem_filter.mpr ⟨member, by simpa using other free⟩
  rw [lookup, ordered.inForce still]
  rfl

theorem Becomes.ordered (becomes : table.Becomes table') (ordered : table.Ordered) :
    table'.Ordered := by
  rcases becomes with rfl | edits
  · exact ordered
  · cases edits with
    | define given free => exact pairwise_insert ordered
    | undefine free => exact List.Pairwise.filter _ ordered

theorem Becomes.wellFormed (becomes : table.Becomes table') (ordered : table.Ordered)
    (wellFormed : table.WellFormed) : table'.WellFormed := by
  have ordered' := becomes.ordered ordered
  refine ⟨becomes.lookup_builtin ordered' rfl wellFormed.line,
    becomes.lookup_builtin ordered' rfl wellFormed.file, fun entry => ordered'.inForce, ?_⟩
  intro entry member plain
  rcases becomes with rfl | edits
  · exact wellFormed.defined entry member plain
  · cases edits with
    | define given free =>
      rcases mem_of_mem_insert member with rfl | before
      · obtain ⟨_, _, _, _, _, built⟩ := given
        exact Macro.wellFormed_of_build built
      · exact wellFormed.defined entry before plain
    | undefine free => exact wellFormed.defined entry (List.mem_of_mem_filter member) plain

theorem ordered_initial : initial.Ordered := by
  unfold Ordered
  decide +kernel

theorem wellFormed_initial : initial.WellFormed where
  line := by decide +kernel
  file := by decide +kernel
  named entry := ordered_initial.inForce
  defined := by
    have builtin : ∀ entry ∈ initial.entries, entry.definition.isBuiltin = true := by decide +kernel
    intro entry member plain
    rw [builtin entry member] at plain
    cases plain

end MacroTable

theorem Run.Reached.wellFormed {run : Run} (reached : run.Reached) :
    run.context.table.Ordered ∧ run.context.table.WellFormed := by
  induction reached with
  | created created =>
    rw [(Session.of_create created).2]
    exact ⟨MacroTable.ordered_initial, MacroTable.wellFormed_initial⟩
  | goes reached goes ih =>
    obtain ⟨becomes, _⟩ := goes.advances reached.sane
    exact ⟨becomes.ordered ih.1, becomes.wellFormed ih.1 ih.2⟩

/-- **The table of a session** is well-formed, whatever was pushed and read. A definition line
breaks no promise of the engine, and leaves the table exactly as it was if it is refused. -/
theorem table_of_reached {run : Run} (reached : run.Reached) :
    run.context.table.WellFormed ∧
    ∀ directive ∈ run.session.directive?, Directive.defines directive = true → ∀ fuel,
      (∀ failure next, Session.handleDirective fuel run.session run.context = .error failure next →
        failure = .outOfFuel) ∧
      ∀ after next, Session.handleDirective fuel run.session run.context = .ok ((), after) next →
        (∃ diagnostic ∈ next.sink.diagnostics.toList.drop run.context.sink.diagnostics.size,
          ∃ code ∈ diagnostic.code, code ∈ refusals) → next.table = run.context.table := by
  refine ⟨reached.wellFormed.2, fun directive known defines fuel => ?_⟩
  obtain ⟨file, below, files, known, opens⟩ := Session.exists_file_of_directive? known
  obtain ⟨text, texts, here, others, named⟩ :=
    List.forall₂_cons_left_iff.mp (files ▸ reached.sane.reads)
  obtain ⟨line, front, left, of, _, _, same, stands⟩ :=
    here.exists_line opens below run.session.includes
  have defines : ∀ other ∈ Session.lineDirective left, Directive.defines other = true := by
    rw [← same, known]
    rintro _ ⟨⟩
    exact defines
  have takes : Session.Takes (· = .outOfFuel) run.context.Calmly run.session
      (Session.handleDirective fuel) (fun _ => run.context.Writes (TakenFrom left)) _ :=
    Session.takes_writtenLine fuel (stands run.session rfl files) (by simp [Token.isEof, opens])
      of.within defines
  constructor
  · exact fun failure next ran => takes.failed (.refl _) ran
  · rintro after next ran ⟨diagnostic, member, code, coded, refused⟩
    obtain ⟨edited, _⟩ := takes.done (.refl _) ran
    rcases edited with same | ⟨_, told, tells, mild⟩
    · exact same
    · rw [tells, ← Array.length_toList, List.drop_left] at member
      exact absurd refused (mild diagnostic member code coded)

/-- A builtin macro cannot be removed, and what was defined before stays. -/
theorem table_of_reached_builtin : ∃ (run : Run) (after : Session) (next : Context),
    Run.reading? 40 1 "#define F(x, y...) x\n#undef __FILE__" = some run ∧ run.Reached ∧
      run.session.directive? = some .undefine ∧ run.context.table.size = 3 ∧
      Session.handleDirective 40 run.session run.context = .ok ((), after) next ∧
      next.sink.diagnostics.toList.map (·.code) = [some "PPS-PP-0204"] ∧
      next.table = run.context.table := by
  obtain ⟨run, reading, passes⟩ : ∃ run,
      Run.reading? 40 1 "#define F(x, y...) x\n#undef __FILE__" = some run ∧
        (run.session.directive? == some .undefine && run.context.table.size == 3 &&
          run.context.sink.diagnostics.isEmpty &&
          Engine.passes (fun found => found.1 == [some "PPS-PP-0204"])
            ((do Session.handleDirective 40
                 return (← getThe Context).sink.diagnostics.toList.map (·.code) :
              SessionM (List (Option String))) run.session run.context)) = true :=
    (Option.any_eq_true _ _).mp (by decide +kernel)
  simp only [Bool.and_eq_true, beq_iff_eq, Array.isEmpty_iff] at passes
  obtain ⟨⟨⟨known, size⟩, silent⟩, passes⟩ := passes
  obtain ⟨⟨codes, after⟩, next, ran, refused⟩ := Engine.exists_ok_of_check passes
  obtain ⟨⟨_, _⟩, _, handled, ⟨⟩⟩ := Engine.bind_ok_iff.mp ran
  have reached := Run.reached_of_reading? reading
  have refused : next.sink.diagnostics.toList.map (·.code) = [some "PPS-PP-0204"] := by
    simpa using refused
  refine ⟨run, after, next, reading, reached, known, size, handled, refused, ?_⟩
  obtain ⟨_, lines⟩ := table_of_reached reached
  refine (lines .undefine known rfl 40).2 after next handled ?_
  rw [silent]
  obtain ⟨diagnostic, whole, code⟩ := List.map_eq_singleton_iff.mp refused
  exact ⟨diagnostic, by simp [whole], "PPS-PP-0204", code, by decide⟩

end Preproc
