import Mathlib.Algebra.Order.BigOperators.Group.List
import Preproc.Proofs.Session.Inspect
import Preproc.Proofs.Session.Redefine

/-! # The macros that remain, given as options

The descriptions of the macros that a quiet run leaves can be given as options. The source that the
options stand for has the definition lines of the macros, and reading them leaves macros of the same
descriptions in the same order.

Main statement: `macros_restored`.
-/

namespace Preproc

open Source Text

section Options

theorem not_isSpace_of_part {c : Char} (part : isIdentifierPart c = true) : isSpace c = false := by
  have disjoint : ∀ code ∈ spaceRanges.flatMap fun range => List.range' range.1 range.2,
      isIdentifierPart (Char.ofNat code) = false := by decide +kernel
  cases space : isSpace c with
  | false => rfl
  | true =>
    obtain ⟨range, member, least, most⟩ := inRanges_iff.mp space
    have among : c.toNat ∈ spaceRanges.flatMap fun range => List.range' range.1 range.2 :=
      List.mem_flatMap.mpr ⟨range, member, List.mem_range'_1.mpr ⟨least, most⟩⟩
    have noPart := disjoint _ among
    rw [Char.ofNat_toNat, part] at noPart
    cases noPart

theorem trim_of_ends {text : List Char} (first : ∀ c ∈ text.head?, isSpace c = false)
    (last : ∀ c ∈ text.getLast?, isSpace c = false) : trim text = text := by
  have front {text : List Char} (first : ∀ c ∈ text.head?, isSpace c = false) :
      text.dropWhile isSpace = text := by
    cases text with
    | nil => rfl
    | cons c rest => exact List.dropWhile_cons_of_neg (by simp [first c rfl])
  unfold trim
  rw [front first, front (by simpa using last), List.reverse_reverse]

namespace Macro.Tidy

variable {definition : Macro} (tidy : definition.Tidy)

include tidy

theorem trim_signature : trim definition.signature.toList = definition.signature.toList := by
  have parts := tidy.name.parts
  have named : definition.name.toList ≠ [] := tidy.name.ne_nil
  rw [toList_signature]
  apply trim_of_ends
  · intro c member
    rw [List.head?_append_of_ne_nil _ named] at member
    exact not_isSpace_of_part (parts c (List.mem_of_mem_head? member))
  · intro c member
    rcases tidy.behind_eq with none | ⟨inner, some, _⟩
    · rw [none, List.append_nil] at member
      exact not_isSpace_of_part (parts c (List.mem_of_getLast? member))
    · rw [some, ← List.cons_append, ← List.append_assoc, List.getLast?_concat] at member
      cases member
      decide

theorem isOptionHead_signature
    (starts : definition.name.toList.head?.any isOptionNameStart = true) :
    isOptionHead definition.signature.toList = true := by
  have parts := tidy.name.parts
  rw [toList_signature]
  generalize definition.name.toList = name at starts parts ⊢
  cases name with
  | nil => cases starts
  | cons c rest =>
    obtain ⟨_, parts⟩ := List.forall_mem_cons.mp parts
    have words : ∀ c ∈ rest, isWordChar c = true := by
      intro c member
      have part := parts c member
      simp only [isIdentifierPart, Bool.or_eq_true] at part
      simp only [isWordChar, Bool.or_eq_true]
      exact .inl part
    have starts : isOptionNameStart c = true := starts
    rw [List.cons_append, isOptionHead, starts, List.dropWhile_append_of_pos words, Bool.true_and]
    rcases tidy.behind_eq with none | ⟨inner, some, closed, _⟩
    · rw [none]
      rfl
    · rw [some, List.dropWhile_cons_of_neg (by decide)]
      simp [isParameterList, closed]

/-- **The description of a tidy macro is split** into its signature and the spelling of its body, if
its name may be given as an option. -/
theorem parseDefinition_describe (plain : definition.isBuiltin = false)
    (starts : definition.name.toList.head?.any isOptionNameStart = true) :
    parseDefinition definition.describe = .ok
      ⟨definition.signature, Token.spell definition.body⟩ := by
  have noEquals : ∀ c ∈ definition.signature.toList, (c != '=') = true := fun c member =>
    bne_iff_ne.mpr (ne_of_mem_of_not_mem member tidy.equals_not_mem)
  have chars : definition.describe.toList =
      definition.signature.toList ++ '=' :: (Token.spell definition.body).toList := by
    simp [Macro.describe, plain]
  have before : definition.describe.toList.takeWhile (· != '=') = definition.signature.toList := by
    rw [chars, List.takeWhile_append_of_pos noEquals, List.takeWhile_cons_of_neg (by simp),
      List.append_nil]
  have behind : definition.describe.toList.dropWhile (· != '=') =
      '=' :: (Token.spell definition.body).toList := by
    rw [chars, List.dropWhile_append_of_pos noEquals, List.dropWhile_cons_of_neg (by simp)]
  have splits : definition.describe.toList.contains '=' = true := by
    simp [chars]
  unfold parseDefinition
  dsimp only
  rw [before, tidy.trim_signature, behind, splits, if_pos (tidy.isOptionHead_signature starts)]
  simp

end Macro.Tidy

end Options

section Tables

def builtinNames : List String :=
  ["__LINE__", "__FILE__"]

namespace MacroTable

variable {entry : Macro.Entry}

theorem filter_insert {keeps : Macro.Entry → Bool}
    {entries : List Macro.Entry} (ordered : entries.Pairwise (·.name < ·.name))
    (kept : keeps entry = true) (fresh : ∀ other ∈ entries, other.name ≠ entry.name)
    (last : ∀ other ∈ entries, keeps other = true → other.name < entry.name) :
    (insert entry entries).filter keeps = entries.filter keeps ++ [entry] := by
  fun_induction insert entry entries with
  | case1 => simp [kept]
  | case2 first rest same => exact absurd same.symm (fresh first List.mem_cons_self)
  | case3 first rest _ before =>
    obtain ⟨smallest, _⟩ := List.pairwise_cons.mp ordered
    have dropped : (first :: rest).filter keeps = [] := by
      refine List.filter_eq_nil_iff.mpr fun other member kept => ?_
      have above : entry.name < other.name := by
        rcases List.mem_cons.mp member with rfl | later
        · exact before
        · exact before.trans (smallest other later)
      exact absurd (above.trans (last other member kept)) (lt_irrefl _)
    rw [List.filter_cons_of_pos kept, dropped]
    rfl
  | case4 first rest _ _ ih =>
    obtain ⟨_, ordered⟩ := List.pairwise_cons.mp ordered
    obtain ⟨_, fresh⟩ := List.forall_mem_cons.mp fresh
    obtain ⟨_, last⟩ := List.forall_mem_cons.mp last
    rw [List.filter_cons, List.filter_cons, ih ordered fresh last]
    split <;> simp

/-- The entries of macros that are not builtin. -/
def given (table : MacroTable) : List Macro.Entry :=
  table.entries.filter fun entry => !entry.definition.isBuiltin

theorem WellFormed.not_mem_builtinNames {table : MacroTable} (wellFormed : table.WellFormed)
    (member : entry ∈ table.entries)
    (plain : entry.definition.isBuiltin = false) : entry.name ∉ builtinNames := by
  have found : table.lookup entry.name = some entry.definition := by
    rw [lookup, wellFormed.named entry member]
    rfl
  have builtin : ∀ name ∈ builtinNames, ∀ definition ∈ table.lookup name,
      definition.isBuiltin = true := by
    simp [builtinNames, wellFormed.line, wellFormed.file, Macro.isBuiltin, Macro.lineBuiltin,
      Macro.fileBuiltin]
  intro named
  rw [builtin _ named _ found] at plain
  cases plain

theorem describe_eq (table : MacroTable) :
    table.describe false = table.given.map fun entry => entry.definition.describe := by
  unfold describe macros given
  rw [List.filter_map, List.map_map]
  simp [Function.comp_def]

/-- A table that holds, besides the builtin macros, macros of the same descriptions as others. -/
structure Restores (table : MacroTable) (definitions : List Macro) : Prop where
  ordered : table.Ordered
  builtin : ∀ entry ∈ table.entries, entry.definition.isBuiltin = true → entry.name ∈ builtinNames
  given : List.Forall₂ (fun definition entry => definition.Redefines entry.definition) definitions
    table.given

variable {table : MacroTable} {definitions : List Macro} {definition definition' : Macro}

theorem restores_initial : initial.Restores [] := by
  have entries : initial.given = [] ∧
      ∀ entry ∈ initial.entries, entry.name ∈ builtinNames := by decide +kernel
  refine ⟨ordered_initial, fun entry member _ => entries.2 entry member, ?_⟩
  exact .nil

variable (restores : table.Restores definitions)

include restores

theorem Restores.map_given : table.given.map Macro.Entry.name = definitions.map Macro.name ∧
      table.given.map (fun entry => entry.definition.describe) =
        definitions.map Macro.describe := by
  obtain ⟨_, _, given⟩ := restores
  generalize table.given = entries at given ⊢
  induction given with
  | nil => exact ⟨rfl, rfl⟩
  | cons here _ ih => exact ⟨congrArg₂ _ here.name ih.1, congrArg₂ _ here.describe ih.2⟩

variable (later : ∀ other ∈ definitions, other.name < definition.name)

include later

variable (free : definition.name ∉ builtinNames)

include free

theorem Restores.below (member : entry ∈ table.entries) : entry.name ≠ definition.name ∧
      (entry.definition.isBuiltin = false → entry.name < definition.name) := by
  obtain ⟨names, _⟩ := restores.map_given
  cases builtin : entry.definition.isBuiltin with
  | true =>
    refine ⟨?_, nofun⟩
    rintro same
    exact free (same ▸ restores.builtin entry member builtin)
  | false =>
    have among : entry.name ∈ table.given.map Macro.Entry.name :=
      List.mem_map_of_mem (List.mem_filter.mpr ⟨member, by simp [builtin]⟩)
    rw [names] at among
    obtain ⟨other, listed, same⟩ := List.mem_map.mp among
    have below : entry.name < definition.name := same ▸ later other listed
    exact ⟨below.ne, fun _ => below⟩

theorem Restores.lookup_eq_none : table.lookup definition.name = none := by
  have missing : table.entry? definition.name = none := by
    refine List.find?_eq_none.mpr fun entry member => ?_
    simpa using (restores.below later free member).1
  rw [lookup, missing]
  rfl

theorem Restores.define (redefines : definition.Redefines definition') :
    (table.define definition').Restores (definitions ++ [definition]) := by
  have name : (⟨table.nextSerial, definition'⟩ : Macro.Entry).name = definition.name :=
    redefines.name
  refine ⟨pairwise_insert restores.ordered, fun entry member builtin => ?_, ?_⟩
  · rcases mem_of_mem_insert member with rfl | before
    · rw [redefines.plain] at builtin
      cases builtin
    · exact restores.builtin entry before builtin
  · have behind : (table.define definition').given = table.given ++
      [⟨table.nextSerial, definition'⟩] := by
      refine filter_insert restores.ordered (by simp [redefines.plain]) (fun other member => ?_)
        fun other member kept => ?_
      · rw [name]
        exact (restores.below later free member).1
      · rw [name]
        exact (restores.below later free member).2 (by simpa using kept)
    rw [behind]
    exact List.rel_append restores.given (.cons redefines .nil)

end MacroTable

end Tables

section Reading

namespace Session

variable {session : Session} {path : String} {below : List InputFile} {context : Context}

/-- What has to hold of a macro for its description to restore it. -/
structure Restorable (definition : Macro) : Prop where
  tidy : definition.Tidy
  plain : definition.isBuiltin = false
  free : definition.name ∉ builtinNames
  starts : definition.name.toList.head?.any isOptionNameStart = true
  last : ∀ token ∈ definition.body.getLast?, token.lexeme ≠ "\\"

theorem clean_restorable {definitions : List Macro}
    (restorable : ∀ definition ∈ definitions, Restorable definition) :
    ∀ line ∈ definitions.map Macro.line ++ [[]], Clean line := by
  refine List.forall_mem_append.mpr ⟨fun line member => ?_, by simpa using clean_nil⟩
  obtain ⟨definition, among, rfl⟩ := List.mem_map.mp member
  exact (restorable definition among).tidy.clean

theorem readFresh_lines {definitions done : List Macro}
    (restorable : ∀ definition ∈ definitions, Restorable definition)
    (ascending : definitions.Pairwise (·.name < ·.name))
    (later : ∀ other ∈ done, ∀ definition ∈ definitions, other.name < definition.name)
    (restores : context.table.Restores done) (unlimited : session.options.errorLimit = 0)
    (path : String) (below : List InputFile) (fuel number : Nat)
    (enough : ∀ definition ∈ definitions, definition.written.length ≤ fuel + 2) :
    ∃ next, next.sink = context.sink ∧ next.table.Restores (done ++ definitions) ∧
      ∀ bound, readFresh (fuel + 2) (bound + definitions.length)
        (session.before path below (tokensFrom path number (definitions.map Macro.line ++ [[]])))
          context =
      readFresh (fuel + 2) bound
        (session.before path below (tokensFrom path (number + definitions.length) [[]])) next := by
  induction definitions generalizing done context number with
  | nil => exact ⟨context, rfl, by simpa using restores, fun _ => rfl⟩
  | cons definition definitions ih =>
    obtain ⟨⟨tidy, plain, free, _⟩, restorable⟩ := List.forall_mem_cons.mp restorable
    obtain ⟨smallest, ascending⟩ := List.pairwise_cons.mp ascending
    obtain ⟨mark, tokens, whole, opens, near⟩ := tidy.lineTokens path number
    have ends : Terminated (tokensFrom path (number + 1) (definitions.map Macro.line ++ [[]])) :=
      terminated_tokensFrom (by simp) (clean_restorable restorable)
    have here : ∀ other ∈ done, other.name < definition.name := fun other member =>
      later other member definition List.mem_cons_self
    obtain ⟨long, enough⟩ := List.forall_mem_cons.mp enough
    have shorter : tokens.length < fuel + 2 := by
      rw [← near.length_eq]
      exact long
    obtain ⟨definition', redefines, steps⟩ := step_written tidy plain
      (@kind_lineEnd path number definition.line) ends (restores.lookup_eq_none here free) session
      path below fuel unlimited opens near shorter
    have restores' : (context.defined definition').table.Restores (done ++ [definition]) :=
      restores.define here free redefines
    have later' : ∀ other ∈ done ++ [definition], ∀ next ∈ definitions, other.name < next.name := by
      refine List.forall_mem_append.mpr ⟨fun other member next among =>
        later other member next (List.mem_cons_of_mem _ among), ?_⟩
      simpa using smallest
    obtain ⟨next, sink, restored, reads⟩ :=
      ih restorable ascending later' restores' (number + 1) enough
    refine ⟨next, sink, by simpa using restored, fun bound => ?_⟩
    have tokens : tokensFrom path number ((definition :: definitions).map Macro.line ++ [[]]) =
        mark :: (tokens ++ lineEnd path number definition.line ::
          tokensFrom path (number + 1) (definitions.map Macro.line ++ [[]])) := by
      rw [List.map_cons, List.cons_append, tokensFrom_cons (by simp), fullLine, whole]
      simp
    rw [tokens, List.length_cons, ← Nat.add_assoc, readFresh, bind_of_ok steps]
    dsimp only
    rw [reads, Nat.add_right_comm, Nat.add_assoc]

theorem readFresh_end {finish : Token} (ended : finish.isEof = true)
    (unlimited : session.options.errorLimit = 0) (fuel bound : Nat) :
    readFresh fuel (bound + 1) (session.before path below [finish]) context =
      readFresh fuel bound
        { session with
          files := below
          depth := session.depth - 1
          finish := if below.isEmpty then finish else session.finish } context := by
  have goes : stops (session.before path below [finish]) context = false := by
    simp [stops, before, unlimited]
  have shows : ((Spot.start path).input [finish] []).stream.head = finish := rfl
  have steps : step fuel (session.before path below [finish]) context =
      .ok (none, { session with
        files := below
        depth := session.depth - 1
        finish := if below.isEmpty then finish else session.finish }) context := by
    rw [step_of_files _ rfl goes, stepIn, shows, if_pos ended]
    rfl
  rw [readFresh, bind_of_ok steps]

end Session

end Reading

section Restoring

theorem scan_lines {lines : List (List Char)} (nonempty : lines ≠ [])
    (clean : ∀ line ∈ lines, Clean line) (noneSpliced : NoneSpliced lines) (file : String) :
    scanTokens file (ofLines lines) = tokensFrom file 1 lines ∧ scanFlaws file (ofLines lines) =
      [] := by
  unfold scanTokens scanFlaws
  rw [scan_ofLines nonempty clean noneSpliced]
  simp [Function.comp_def]

theorem tokensFrom_nil (file : String) (number : Nat) :
    tokensFrom file number [[]] = [.endOfInput ⟨file, number, 1⟩] := by
  simp [tokensFrom, lineTokens, cut_nil, placeLine]

theorem Session.push_of_openFile {fuel : Nat} {source path : String}
    {session opened after : Session} {context middle next : Context}
    (opens : openFile fuel source path session context = .ok ((), opened) middle)
    (first : opened.started = false) (defines : (if !opened.options.commandLine.isEmpty then
        openFile fuel opened.options.commandLine commandLineFile else pure () : SessionM Unit)
      { opened with started := true } middle = .ok ((), after) next) :
    push fuel source path session context = .ok ((), after) next := by
  have notes : (modify fun session => { session with started := true } : SessionM Unit)
      opened middle = .ok ((), { opened with started := true }) middle := rfl
  refine (bind_of_ok opens).trans ?_
  change openCommandLine fuel opened.started opened.options.commandLine opened middle = _
  rw [first]
  exact (bind_of_ok notes).trans defines

theorem Session.readFresh_last {session : Session} {finish : Token} (ended : finish.isEof = true)
    (unlimited : session.options.errorLimit = 0) (path : String) (fuel bound : Nat)
    (context : Context) :
    readFresh fuel (bound + 2) (session.before path [] [finish]) context =
      .ok (finish, { session with files := [], depth := session.depth - 1, finish }) context := by
  rw [readFresh_end ended unlimited]
  exact bind_of_ok (@step_of_no_files fuel
    { session with files := [], depth := session.depth - 1, finish } context rfl unlimited)

variable {definitions : List Macro}

/-- The options that define macros by their descriptions. -/
def Options.defining (definitions : List Macro) : Options :=
  { defines := definitions.map Macro.describe }

variable (restorable : ∀ definition ∈ definitions, Session.Restorable definition)

include restorable

theorem Options.check_defining :
    Options.check { defines := definitions.map Macro.describe } = .ok (.defining definitions) := by
  have accepted : (definitions.map Macro.describe).forM
      (fun text => (parseDefinition text).map fun _ => ()) =
        (.ok () : Except OptionsError Unit) := by
    induction definitions with
    | nil => rfl
    | cons definition definitions ih =>
      obtain ⟨here, restorable⟩ := List.forall_mem_cons.mp restorable
      have parsed := here.tidy.parseDefinition_describe here.plain here.starts
      change (Except.map (fun _ => ()) (parseDefinition definition.describe) >>= fun _ =>
        (definitions.map Macro.describe).forM _) = _
      rw [parsed, ih restorable]
      rfl
  unfold Options.check
  rw [accepted]
  rfl

theorem Options.commandLine_defining :
    (Options.defining definitions).commandLine = ofLines (definitions.map Macro.line ++ [[]]) := by
  apply String.toList_inj.mp
  have joined (lines : List (List Char)) :
      joinLines (lines ++ [[]]) = lines.flatMap (· ++ ['\n']) := by
    induction lines with
    | nil => rfl
    | cons line lines ih =>
      rw [List.flatMap_cons, ← ih]
      cases lines with
      | nil => simp [joinLines]
      | cons next lines => simp [joinLines_cons_cons]
  have lines : (String.join ((definitions.map Macro.describe).map Options.defineLine)).toList =
      joinLines (definitions.map Macro.line ++ [[]]) := by
    rw [joined, String.toList_join, List.flatMap_map, List.flatMap_map, List.flatMap_map]
    refine List.flatMap_congr fun definition member => ?_
    obtain ⟨tidy, plain, _, starts, _⟩ := restorable definition member
    unfold Options.defineLine Macro.line
    rw [tidy.parseDefinition_describe plain starts]
    simp
  simpa [commandLine, defining, ofLines] using lines

/-- **Macros are restored from their descriptions**, whatever else there is to read. -/
theorem Session.readFresh_defining (ascending : definitions.Pairwise (·.name < ·.name))
    (includes : IncludeSystem) (file : String) (fuel : Nat)
    (enough : ∀ definition ∈ definitions, definition.written.length ≤ fuel + 2) :
    ∃ session finish after next,
      push (fuel + 2) "" file { options := .defining definitions, includes }
        (Options.defining definitions).context =
          .ok ((), session) (Options.defining definitions).context ∧
      session.peeked = none ∧ finish.isEof = true ∧
      (∀ bound, readFresh (fuel + 2) (bound + definitions.length + 3) session
        (Options.defining definitions).context = .ok (finish, after) next) ∧
      next.sink = {} ∧ next.table.Restores definitions := by
  obtain ⟨mainTokens, mainFlaws⟩ := scan_lines (List.cons_ne_nil [] []) (by simpa using clean_nil)
    (by simp [NoneSpliced]) file
  have spliced : NoneSpliced (definitions.map Macro.line ++ [[]]) := by
    rw [NoneSpliced, List.dropLast_concat]
    intro line member
    obtain ⟨definition, among, rfl⟩ := List.mem_map.mp member
    obtain ⟨tidy, _, _, _, last⟩ := restorable definition among
    exact tidy.not_spliced last
  obtain ⟨tokens, flaws⟩ := scan_lines (List.append_ne_nil_of_right_ne_nil _
    (List.cons_ne_nil [] [])) (clean_restorable restorable) spliced commandLineFile
  have command := Options.commandLine_defining restorable
  let start : Session := { options := .defining definitions, includes }
  let context := (Options.defining definitions).context
  let finish : Token := .endOfInput ⟨file, 1, 1⟩
  have unlimited : start.options.errorLimit = 0 := rfl
  have opensMain : openFile (fuel + 2) "" file start context =
      .ok ((), start.opened file [finish]) context := by
    have opens := @openFile_of_flawless (fuel + 1) _ file start mainFlaws context
    rwa [mainTokens, tokensFrom_nil] at opens
  let main : Session := { start.opened file [finish] with started := true }
  cases definitions with
  | nil =>
    exact ⟨main, finish, _, context, push_of_openFile opensMain rfl rfl, rfl, rfl, fun bound =>
      @readFresh_last main finish rfl unlimited file (fuel + 2) (bound + 1) context, rfl,
      MacroTable.restores_initial⟩
  | cons definition others =>
    let lines := tokensFrom commandLineFile 1 ((definition :: others).map Macro.line ++ [[]])
    have opensLines : openFile (fuel + 2) (Options.defining (definition :: others)).commandLine
        commandLineFile main context = .ok ((), main.opened commandLineFile lines) context := by
      have opens := @openFile_of_flawless (fuel + 1) _ commandLineFile main flaws context
      rwa [tokens, ← command] at opens
    have nonempty : (Options.defining (definition :: others)).commandLine.isEmpty = false := by
      rw [String.isEmpty_eq_false_iff, command, ofLines, Ne, String.ofList_eq_empty_iff]
      have among : definition.line ∈ (definition :: others).map Macro.line ++ [[]] :=
        List.mem_append_left _ List.mem_cons_self
      have hash : '#' ∈ definition.line :=
        List.mem_append_left _ (List.mem_append_left _ (by decide))
      exact List.ne_nil_of_mem (mem_joinLines.mpr (.inl ⟨_, among, hash⟩))
    have later : ∀ other ∈ ([] : List Macro), ∀ next ∈ definition :: others,
        other.name < next.name := by simp
    obtain ⟨next, sink, restores, reads⟩ := @readFresh_lines (main.opened commandLineFile lines)
      context _ [] restorable ascending later MacroTable.restores_initial unlimited commandLineFile
      main.files fuel 1 enough
    refine ⟨main.opened commandLineFile lines, finish,
      { main with files := [], depth := 0, finish }, next, push_of_openFile opensMain rfl ?_,
      rfl, rfl, fun bound => ?_, sink, restores⟩
    · change (if !(Options.defining (definition :: others)).commandLine.isEmpty then _ else _ :
        SessionM Unit) main context = _
      rw [nonempty]
      exact opensLines
    · have limits : (main.opened commandLineFile lines).options.errorLimit = 0 := rfl
      rw [Nat.add_right_comm]
      refine (reads (bound + 3)).trans ?_
      rw [tokensFrom_nil]
      refine (readFresh_end rfl limits (fuel + 2) (bound + 2)).trans ?_
      exact @readFresh_last main finish rfl unlimited file (fuel + 2) bound next

end Restoring

/-- **The macros that a quiet run leaves are restored from their descriptions.** If their names may
be given as options and no body ends in a backslash, their descriptions are accepted as options, and
a run of the empty source with these options gives nothing but the end, reports nothing, and leaves
macros of the same descriptions. -/
theorem macros_restored {fuel : Nat} {options : Options} {includes : IncludeSystem}
    {source file : String} {result : Result} {context : Context}
    (ran : preprocessWithin fuel options includes source file = .ok result context)
    (quiet : result.diagnostics = [])
    (starts : ∀ definition ∈ context.table.macros, definition.isBuiltin = false →
      definition.name.toList.head?.any isOptionNameStart = true)
    (last : ∀ definition ∈ context.table.macros, definition.isBuiltin = false →
      ∀ token ∈ definition.body.getLast?, token.lexeme ≠ "\\") :
    ∃ options', Options.check { defines := result.macros } = .ok options' ∧
      ∃ bound, ∀ fuel' ≥ bound, ∀ includes' file', ∃ result' context' finish,
        preprocessWithin fuel' options' includes' "" file' = .ok result' context' ∧
          result'.tokens = [finish] ∧ finish.isEof = true ∧ result'.diagnostics = [] ∧
          result'.macros = result.macros := by
  obtain ⟨ordered, tidy⟩ := tidy_of_preprocessWithin ran quiet
  obtain ⟨_, _, reached⟩ := Run.reached_of_preprocessWithin ran
  obtain ⟨_, _, _, _, _, _, gathered⟩ := of_preprocessWithin ran
  let definitions := context.table.given.map Macro.Entry.definition
  have restorable : ∀ definition ∈ definitions, Session.Restorable definition := by
    intro definition member
    obtain ⟨entry, among, rfl⟩ := List.mem_map.mp member
    obtain ⟨among, plain⟩ := List.mem_filter.mp among
    have plain : entry.definition.isBuiltin = false := by simpa using plain
    have remains := List.mem_map_of_mem (f := Macro.Entry.definition) among
    exact ⟨tidy entry among plain, plain, reached.wellFormed.2.not_mem_builtinNames among plain,
      starts _ remains plain, last _ remains plain⟩
  have ascending : definitions.Pairwise (·.name < ·.name) :=
    List.pairwise_map.mpr (ordered.filter _)
  have macros : result.macros = definitions.map Macro.describe := by
    rw [gathered]
    exact (context.table.describe_eq).trans (by simp [definitions, Function.comp_def])
  refine ⟨.defining definitions, macros ▸ Options.check_defining restorable,
    (definitions.map fun definition => definition.written.length).sum + definitions.length + 3,
    fun fuel' enough includes' file' => ?_⟩
  obtain ⟨fuel, rfl⟩ := Nat.exists_eq_add_of_le' (show 2 ≤ fuel' by omega)
  have long : ∀ definition ∈ definitions, definition.written.length ≤ fuel + 2 := by
    intro definition member
    have among : definition.written.length ∈ definitions.map fun definition =>
        definition.written.length := List.mem_map_of_mem member
    have part := List.le_sum_of_mem among
    omega
  obtain ⟨session', finish, after', next, pushed, unpeeked, ended, reads, sink, restores⟩ :=
    Session.readFresh_defining restorable ascending includes' file' fuel long
  have read : Session.readAll (fuel + 2) (fuel + 2) session'
    (Options.defining definitions).context =
      .ok ([finish], after') next := by
    obtain ⟨bound, more⟩ := Nat.exists_eq_add_of_le'
      (show definitions.length + 3 ≤ fuel + 2 by omega)
    have taken : Session.read (fuel + 2) session' (Options.defining definitions).context =
        .ok (finish, after') next := by
      rw [Session.read_of_unpeeked _ unpeeked, ← reads bound, Nat.add_assoc, ← more]
    rw [Session.readAll, Session.bind_of_ok taken, if_pos ended]
    rfl
  refine ⟨_, next, finish, preprocessWithin_of pushed read, rfl, ended, ?_, ?_⟩
  · change next.sink.diagnostics.toList = []
    rw [sink]
  · rw [macros]
    exact next.table.describe_eq.trans restores.map_given.2

/-- Whether a run leaves, without a report, macros that may be given as options. -/
def leavesRestorable : EStateM.Result Failure Context Result → Bool
  | .error _ _ => false
  | .ok result context =>
    result.diagnostics.isEmpty && context.table.macros.all fun definition =>
      definition.name.toList.head?.any isOptionNameStart &&
        definition.body.getLast?.all (·.lexeme != "\\")

/-- A source that defines macros with an empty body, with a body that begins with a parenthesis and
has an equals sign in it, and with both kinds of variadic parameters. -/
def variedSource : String :=
  "#define EMPTY\n#define TEST (a == 1)\n#define CALL(f, ...) f ( __VA_ARGS__ )\n" ++
    "#define JOIN(a, rest...) a##rest #a\n"

theorem macros_restored_varied : ∃ result context,
    preprocessWithin 60 {} default variedSource "main.c" = .ok result context ∧
      result.macros = ["CALL(f,...)=f ( __VA_ARGS__ )", "EMPTY=", "JOIN(a,rest...)=a##rest #a",
        "TEST=(a == 1)"] ∧
      ∃ options', Options.check { defines := result.macros } = .ok options' ∧
        ∃ bound, ∀ fuel' ≥ bound, ∀ includes' file', ∃ result' context' finish,
          preprocessWithin fuel' options' includes' "" file' = .ok result' context' ∧
            result'.tokens = [finish] ∧ finish.isEof = true ∧ result'.diagnostics = [] ∧
            result'.macros = result.macros := by
  obtain ⟨result, context, ran, macros⟩ := Engine.exists_ok_of_check
    (show Engine.passes (fun result => result.macros == ["CALL(f,...)=f ( __VA_ARGS__ )", "EMPTY=",
      "JOIN(a,rest...)=a##rest #a", "TEST=(a == 1)"])
      (preprocessWithin 60 {} default variedSource "main.c") = true by decide +kernel)
  have passes : leavesRestorable (preprocessWithin 60 {} default variedSource "main.c") = true := by
    decide +kernel
  rw [ran] at passes
  simp only [leavesRestorable, Bool.and_eq_true, List.isEmpty_iff, List.all_eq_true] at passes
  obtain ⟨quiet, each⟩ := passes
  refine ⟨result, context, ran, beq_iff_eq.mp macros, macros_restored ran quiet
    (fun definition member _ => (each definition member).1) fun definition member _ token last =>
      ?_⟩
  have plain := (each definition member).2
  rw [Option.mem_def.mp last] at plain
  simpa using plain

end Preproc
