import Preproc.Proofs.Session.Alone
import Preproc.Proofs.Session.Tables

/-! # Names that line directives give

A line directive gives the lines behind it a number and may give their file a name. `__FILE__`
quotes the name in force, with a backslash before each backslash and quote, whereas the directive
takes what stands between the quotes of its literal as it is. So a name comes back as it was written
only if there is nothing to escape in it.

Main statement: `Session.read_file_after_line`.
-/

namespace Preproc

open TokenStream (move readStack)

namespace Session

variable {session : Session} {spot : Spot} {context : Context} {frames : List Conditional}
  {below : List InputFile} {token : Token} {rest : List Token} (fuel : Nat)

theorem rawHead_of_files {file : InputFile} (top : session.files = file :: below) :
    rawHead session context = .ok (file.stream.head, session) context := by
  rw [Regime.rawHead_eq, Regime.upcoming, top]

theorem takeRaw_of_moveFile {file : InputFile} {after : Session} {next : Context}
    (top : session.files = file :: below) (head : file.stream.head = token)
    (moves : moveFile fuel .advance session context = .ok ((), after) next) :
    takeRaw fuel session context = .ok (token, after) next := by
  unfold takeRaw
  rw [bind_of_ok (rawHead_of_files top), bind_of_ok moves, head]
  rfl

theorem takeRaw_of_input (top : session.files = spot.input (token :: rest) frames :: below)
    (goesOn : token.isEof = false) (ends : Terminated rest) :
    takeRaw (fuel + 2) session context =
      .ok (presume spot.map token, { session with files := spot.input rest frames :: below })
        context :=
  takeRaw_of_moveFile _ top rfl (moveFile_of_input fuel top goesOn ends)

theorem restOfLine_of_input {operands : List Token} {newline : Token} {bound : Nat}
    (top : session.files = spot.input (operands ++ newline :: rest) frames :: below)
    (inside : ∀ token ∈ operands, token.endsLine = false) (kind : newline.kind = .newline)
    (ends : Terminated rest) (enough : operands.length < bound) :
    restOfLine (fuel + 2) bound session context =
      .ok (operands.map (presume spot.map), { session with
        files := spot.input (newline :: rest) frames :: below }) context := by
  induction operands generalizing session bound with
  | nil =>
    obtain ⟨bound, rfl⟩ := Nat.exists_eq_add_one_of_ne_zero (Nat.ne_zero_of_lt enough)
    have shown : (spot.input (newline :: rest) frames).stream.head.endsLine = true :=
      (endsLine_presume spot.map newline).trans (endsLine_of_newline kind)
    rw [List.nil_append] at top
    unfold restOfLine
    rw [bind_of_ok (rawHead_of_files top), if_pos shown]
    exact congrArg (fun files => EStateM.Result.ok ([], { session with files }) context) top
  | cons operand operands ih =>
    obtain ⟨here, later⟩ := List.forall_mem_cons.mp inside
    obtain ⟨bound, rfl⟩ := Nat.exists_eq_add_one_of_ne_zero (Nat.ne_zero_of_lt enough)
    have shown : (presume spot.map operand).endsLine = false :=
      (endsLine_presume spot.map operand).trans here
    have head : (spot.input (operand :: (operands ++ newline :: rest)) frames).stream.head =
        presume spot.map operand := rfl
    rw [List.cons_append] at top
    unfold restOfLine
    rw [bind_of_ok (rawHead_of_files top), if_neg (by simp [head, shown]), bind_of_ok
      (takeRaw_of_input fuel top (isEof_of_inside here) (terminated_line later kind ends)),
      bind_of_ok (ih rfl later (Nat.lt_of_succ_lt_succ enough))]
    rfl

theorem endLine_of_newline {taken word : Token} {file : InputFile} {after : Session}
    {next : Context} (top : session.files = file :: below) (kind : file.stream.head.kind = .newline)
    (takes : takeRaw fuel session context = .ok (taken, after) next) :
    endLine fuel word .checked session context = .ok ((), after) next := by
  have head := @rawHead_of_files _ context _ _ top
  rw [endLine.eq_def]
  dsimp only
  rw [bind_of_ok head, if_neg (by simp [endsLine_of_newline kind])]
  rw [bind_of_ok head, if_pos (by simp [kind]), bind_of_ok takes]
  rfl

theorem handleDirective_of_handle {mark name : Token} {kind : Directive} {ending : Ending}
    {middle : Session} {next : Context}
    (top : session.files = spot.input (mark :: name :: rest) frames :: below)
    (marks : mark.isEof = false) (names : name.directive? = some kind)
    (active : Conditional.isSkipping frames = false) (ends : Terminated rest)
    (handles : handle (fuel + 2) (presume spot.map name) false kind
      { session with files := spot.input rest frames :: below } context =
        .ok (ending, middle) next) :
    handleDirective (fuel + 2) session context =
      endLine (fuel + 2) (presume spot.map name) ending middle next := by
  have identifier : name.isIdentifier = true := by
    by_contra other
    rw [Token.directive?, if_neg other] at names
    cases names
  rw [Token.directive?, if_pos identifier] at names
  have inside := goesOn_of_isIdentifier identifier
  have more := ends.cons (isEof_of_inside inside)
  have head : rawHead { session with files := spot.input (name :: rest) frames :: below } context =
      .ok (presume spot.map name, _) context := rfl
  have skips : isSkipping { session with files := spot.input (name :: rest) frames :: below }
      context = .ok (Conditional.isSkipping frames, _) context := rfl
  unfold handleDirective
  rw [bind_of_ok (takeRaw_of_input fuel top marks more), bind_of_ok head, if_neg (by simp [inside]),
    bind_of_ok skips, if_neg (by simp [identifier]), lexeme_presume, names]
  dsimp only
  rw [if_neg (by simp [active]),
    bind_of_ok (takeRaw_of_input fuel rfl (isEof_of_inside inside) ends), active,
    bind_of_ok handles]

end Session

/-- The tokens of a line directive with a number and a name, from its `#` to its newline. -/
structure LineDirective (mark name number literal newline : Token) (line : Nat) (text : List Char) :
    Prop where
  marks : mark.kind = .directive
  names : name.directive? = some .line
  isNumber : number.kind = .number
  digits : Session.isDigits number.lexeme.toList = true
  value : Text.decimal? number.lexeme.toList = some line
  positive : 0 < line
  isString : literal.kind = .string
  spelled : literal.lexeme.toList = '\x22' :: (text ++ ['\x22'])
  ends : newline.kind = .newline

/-- The spot behind a line directive. -/
def Spot.renumbered (spot : Spot) (newline : Token) (line : Nat) (text : List Char) : Spot :=
  { spot with map := some ⟨newline.location.line, line, some (.ofList text)⟩ }

namespace Session

variable {session : Session} {spot : Spot} {context : Context} {frames : List Conditional}
  {below : List InputFile} {rest : List Token} (fuel : Nat)

section

variable {mark name number literal newline : Token} {line : Nat} {text : List Char}
  (directive : LineDirective mark name number literal newline line text) (ends : Terminated rest)

include directive ends

theorem handleLine_of_input (word : Token)
    (top : session.files = spot.input (number :: literal :: newline :: rest) frames :: below) :
    handleLine (fuel + 3) word session context = .ok (.checked, { session with
      files := ⟨spot.path, .expansion { spot.expansion [] with
        lookahead := presume spot.map newline
        sources := [.scanner (.holding spot.file (spot.renumbered newline line text).map
          newline.location.line rest)] }, frames⟩ :: below }) context := by
  have inside : ∀ token ∈ [number, literal], token.endsLine = false := by
    simp [Token.endsLine, directive.isNumber, directive.isString]
  have expanded : expandedLine (fuel + 3) session context =
      .ok ([presume spot.map number, presume spot.map literal],
        { session with files := spot.input (newline :: rest) frames :: below }) context := by
    unfold expandedLine
    rw [bind_of_ok (restOfLine_of_input (fuel + 1) top inside directive.ends ends (by simp))]
    dsimp only [List.map]
    rw [if_neg (by simp [Token.isIdentifier, directive.isNumber])]
    rfl
  have plain : isPlainString (presume spot.map literal) = true := by
    simp [isPlainString, directive.isString, directive.spelled]
  have unquoted : unquote (presume spot.map literal).lexeme = .ofList text := by
    simp [unquote, directive.spelled]
  obtain ⟨line, rfl⟩ := Nat.exists_eq_add_one.mpr directive.positive
  unfold handleLine
  rw [bind_of_ok expanded]
  dsimp only
  rw [kind_presume, lexeme_presume, directive.isNumber, directive.digits, directive.value,
    if_pos (by rfl)]
  change renumberFrom word (line + 1) [presume spot.map literal] _ context = _
  simp only [renumberFrom, plain, unquoted, if_true]
  rw [Spot.input, Spot.expansion, Scanner.behind_cons (isEof_of_newline directive.ends)]
  rfl

/-- **A line directive** gives the lines behind it a number and their file a name. -/
theorem step_lineDirective (active : Conditional.isSkipping frames = false)
    (unstopped : stops session context = false) (top : session.files =
      spot.input (mark :: name :: number :: literal :: newline :: rest) frames :: below) :
    step (fuel + 3) session context = .ok (none, { session with
      files := (spot.renumbered newline line text).input rest frames :: below }) context := by
  have inside : ∀ token ∈ [number, literal], token.endsLine = false := by
    simp [Token.endsLine, directive.isNumber, directive.isString]
  have marks : (spot.input (mark :: name :: number :: literal :: newline :: rest)
      frames).stream.head.kind = .directive := (kind_presume spot.map mark).trans directive.marks
  have shown : (presume spot.map newline).isEof = false := by
    simp [isEof_of_newline directive.ends]
  have handled : handleDirective (fuel + 3) session context = .ok ((), { session with
      files := (spot.renumbered newline line text).input rest frames :: below }) context := by
    rw [handleDirective_of_handle (fuel + 1) top (by simp [Token.isEof, directive.marks])
      directive.names active (terminated_line inside directive.ends ends)
      (handleLine_of_input fuel directive ends _ rfl)]
    exact endLine_of_newline (fuel + 3) rfl ((kind_presume spot.map newline).trans directive.ends)
      (takeRaw_of_moveFile _ rfl rfl (@moveFile_of_reads _ (spot.renumbered newline line text) _ _ _
        (fuel + 1) _ _ _ _ rfl shown ends rfl))
  rw [step_of_files _ top unstopped, stepIn_of_directive _ marks, bind_of_ok handled]
  rfl

end

theorem emit_of_takeRaw {file : InputFile} {token : Token} {after : Session} {next : Context}
    (top : session.files = file :: below)
    (given : file.stream.head.endsLine = false ∧ file.stream.head.kind ≠ .directive)
    (takes : takeRaw fuel session context = .ok (token, after) next) :
    emit fuel session context = .ok (some token, after) next := by
  unfold emit
  rw [bind_of_ok (rawHead_of_files top), if_neg (by simp [given]), bind_of_ok takes]
  rfl

/-- The token that `__FILE__` becomes. -/
def told (called : Token) : Token :=
  { called with kind := .string, lexeme := quoteText called.location.file }

theorem readStack_ended {playback : Playback TokenStream} (ended : playback.lookahead.isEof = true)
    (scanner : Scanner) :
    readStack (move (fuel + 1)) [.playback playback, .scanner scanner] =
      readStack (move (fuel + 1)) [.scanner scanner] := by
  simp [readStack, Stack.read, TokenStream.readWith, move, TokenStream.moveWith, Playback.advance,
    ended, TokenStream.head]

section

variable {called : Token} (identifier : called.isIdentifier = true)
  (named : called.lexeme = "__FILE__") (wellFormed : context.table.WellFormed)

include identifier named wellFormed

theorem settle_file (origin : Option Token) (scanner : Scanner) (bound : Nat) :
    ∃ playback next, Expansion.settle (move (fuel + 2)) (bound + 2)
        ⟨none, origin, called, false, [.scanner scanner]⟩ context =
      .ok ⟨none, some called, told called, false, [.playback playback, .scanner scanner]⟩ next ∧
      playback.lookahead.isEof = true ∧ next.table = context.table ∧ next.sink = context.sink := by
  obtain ⟨⟨serial, definition⟩, listed, rfl⟩ := Option.map_eq_some_iff.mp (named ▸ wellFormed.file)
  have looks : Engine.entry? called.lexeme context = .ok (some ⟨serial, .fileBuiltin⟩) context :=
    congrArg (EStateM.Result.ok · context) listed
  unfold Expansion.settle Expansion.attempt
  dsimp only
  rw [identifier, if_neg (by simp), bind_assoc]
  exact ⟨_, _, Engine.bind_ok_iff.mpr ⟨_, _, looks, rfl⟩, rfl, rfl, rfl⟩

theorem step_file {physical : Token} (shown : presume spot.map physical = called)
    (top : session.files = spot.input (physical :: rest) frames :: below)
    (active : Conditional.isSkipping frames = false) (unstopped : stops session context = false)
    (ends : Terminated rest) :
    ∃ next, step (fuel + 3) session context = .ok (some (told called), { session with
        files := { spot with origin := some called }.input rest frames :: below }) next ∧
      next.table = context.table ∧ next.sink = context.sink := by
  have kind : (spot.input (physical :: rest) frames).stream.head.kind = .identifier := by
    change (presume spot.map physical).kind = _
    rw [shown]
    simpa [Token.isIdentifier] using identifier
  have passed : ((spot.input (physical :: rest) frames).stream.head.kind == .newline ||
      (spot.input (physical :: rest) frames).isSkipping) = false := by
    rw [kind]
    exact active
  have goesOn : physical.isEof = false := by
    rw [← isEof_presume spot.map, shown]
    exact isEof_of_inside (goesOn_of_isIdentifier identifier)
  obtain ⟨playback, next, settled, ended, kept⟩ := settle_file fuel identifier named wellFormed
    spot.origin (.behind spot.file spot.map (physical :: rest)) fuel
  have settles : moveFile (fuel + 3) .settle session context = .ok ((), { session with
      files := ⟨spot.path, .expansion ⟨none, some called, told called, false,
        [.playback playback, .scanner (.behind spot.file spot.map (physical :: rest))]⟩, frames⟩ ::
          below }) next := by
    subst shown
    rw [moveFile_of_files top]
    exact Engine.bind_ok_iff.mpr ⟨_, _, Engine.bind_ok_iff.mpr ⟨_, _, settled, rfl⟩, rfl⟩
  rw [step_of_files _ top unstopped, stepIn_of_plain _ (by simp [Token.isEof, kind])
    (by simp [kind]) passed, if_neg (by simp), bind_of_ok settles]
  have given : (told called).endsLine = false ∧ (told called).kind ≠ .directive := by
    simp [told, Token.endsLine]
  have reads := (readStack_ended (fuel + 1) ended _).trans
    (congrArg (readStack _) (spot.sources_expansion goesOn rest))
  refine ⟨next, emit_of_takeRaw (fuel + 3) rfl given ?_, kept⟩
  refine takeRaw_of_moveFile _ rfl rfl ?_
  exact @moveFile_of_reads _ { spot with origin := some called } _ _ _ (fuel + 1) _ _ _ _ rfl rfl
    ends reads

end

end Session

section Spelling

theorem length_le_escapeQuoted (text : List Char) : text.length ≤ (escapeQuoted text).length := by
  induction text with
  | nil => exact Nat.le_refl _
  | cons c rest ih =>
    unfold escapeQuoted
    split <;> simp only [List.length_cons] <;> omega

theorem escapeQuoted_eq_iff {text : List Char} :
    escapeQuoted text = text ↔ ∀ c ∈ text, c ≠ '\\' ∧ c ≠ '\x22' := by
  induction text with
  | nil => simp [escapeQuoted]
  | cons c rest ih =>
    unfold escapeQuoted
    split
    next escaped =>
      refine iff_of_false (fun same => ?_) fun plain => ?_
      · have shorter := length_le_escapeQuoted rest
        have lengths := congrArg List.length same
        simp only [List.length_cons] at lengths
        omega
      · have here := plain c List.mem_cons_self
        simp [here] at escaped
    next plain =>
      have here : c ≠ '\\' ∧ c ≠ '\x22' := by simpa using plain
      rw [List.cons_inj_right, ih, List.forall_mem_cons]
      exact (and_iff_right here).symm

theorem quoteText_eq_iff {name lexeme : String} {text : List Char}
    (spelled : lexeme.toList = '\x22' :: (text ++ ['\x22'])) :
    quoteText name = lexeme ↔ escapeQuoted name.toList = text := by
  rw [← String.toList_inj, spelled, quoteText]
  simp

end Spelling

namespace Session

/-- **The name of a line directive comes back** through `__FILE__` on a later line: the next token
that is read is one string literal, which quotes the name that the directive gave. It is spelled as
the directive's own literal if and only if nothing in that had to be escaped; where the literal is
empty, if and only if the name that stays in force is empty. -/
theorem read_file_after_line {session : Session} {spot : Spot} {context : Context}
    {frames : List Conditional} {below : List InputFile} {rest : List Token}
    {mark name number literal newline called : Token} {line : Nat} {text : List Char}
    (directive : LineDirective mark name number literal newline line text)
    (identifier : called.isIdentifier = true) (named : called.lexeme = "__FILE__")
    (later : newline.location.line < called.location.line) (ends : Terminated rest)
    (top : session.files =
      spot.input (mark :: name :: number :: literal :: newline :: called :: rest) frames :: below)
    (active : Conditional.isSkipping frames = false) (unstopped : stops session context = false)
    (unpeeked : session.peeked = none) (wellFormed : context.table.WellFormed) (fuel : Nat) :
    ∃ token origin next, read (fuel + 3) session context = .ok (token, { session with
        files := { spot.renumbered newline line text with origin }.input rest frames :: below })
          next ∧ next.table = context.table ∧ next.sink = context.sink ∧ token.kind = .string ∧
      token.lexeme = quoteText (if text = [] then called.location.file else .ofList text) ∧
      (token.lexeme = literal.lexeme ↔
        if text = [] then called.location.file = "" else ∀ c ∈ text, c ≠ '\\' ∧ c ≠ '\x22') := by
  obtain ⟨shown, same⟩ : ∃ shown, presume (spot.renumbered newline line text).map called = shown :=
    ⟨_, rfl⟩
  have file : shown.location.file = if text = [] then called.location.file else .ofList text := by
    rw [← same]
    simp [presume, Spot.renumbered, LineMap.apply, Token.relocated, not_le.mpr later]
  have goesOn := isEof_of_inside (goesOn_of_isIdentifier identifier)
  have steps := step_lineDirective fuel directive (ends.cons goesOn) active unstopped top
  have identifier' : shown.isIdentifier = true := by simpa [← same] using identifier
  have named' : shown.lexeme = "__FILE__" := by simpa [← same] using named
  obtain ⟨next, gives, table, sink⟩ := @step_file { session with
    files := (spot.renumbered newline line text).input (called :: rest) frames :: below } _ context
    _ _ _ fuel shown identifier' named' wellFormed _ same rfl active unstopped ends
  have reads : read (fuel + 3) session context = .ok (told shown, { session with
      files := { spot.renumbered newline line text with origin := some shown }.input rest frames ::
        below }) next := by
    rw [read_of_unpeeked _ unpeeked, readFresh, bind_of_ok steps]
    dsimp only
    rw [readFresh, bind_of_ok gives]
    rfl
  refine ⟨told shown, some shown, next, reads, table, sink, rfl, congrArg quoteText file, ?_⟩
  change quoteText shown.location.file = _ ↔ _
  rw [quoteText_eq_iff directive.spelled, file]
  split
  next empty =>
    rw [empty, ← String.toList_eq_nil_iff]
    refine ⟨fun escaped => ?_, fun unnamed => by rw [unnamed]; rfl⟩
    have shorter := length_le_escapeQuoted called.location.file.toList
    rw [escaped] at shorter
    exact List.length_eq_zero_iff.mp (Nat.le_zero.mp shorter)
  next =>
    rw [String.toList_ofList]
    exact escapeQuoted_eq_iff

theorem read_file_after_line_header : ∃ session context token after next,
    read 3 session context = .ok (token, after) next ∧ token.lexeme = "\"a.h\"" ∧
      session.files ≠ [] ∧ session.peeked = none := by
  let literal : Token := ⟨.string, "\"a.h\"", ⟨"main.c", 1, 9⟩, true⟩
  let session : Session :=
    { options := {}, includes := default, files := [(Spot.start "main.c").input
        [⟨.directive, "#", ⟨"main.c", 1, 1⟩, true⟩, ⟨.identifier, "line", ⟨"main.c", 1, 2⟩, false⟩,
          ⟨.number, "5", ⟨"main.c", 1, 7⟩, true⟩, literal,
          ⟨.newline, "\n", ⟨"main.c", 1, 14⟩, false⟩,
          ⟨.identifier, "__FILE__", ⟨"main.c", 2, 1⟩, true⟩, .endOfInput ⟨"main.c", 2, 9⟩] []] }
  obtain ⟨token, _, next, ran, _, _, _, _, same⟩ := @read_file_after_line session _ {} _ _ _ _ _ _ _
    _ _ 5 ['a', '.', 'h'] ⟨rfl, rfl, rfl, by decide, by decide, by decide, rfl, by decide, rfl⟩ rfl
    rfl (by decide) (show Terminated [.endOfInput ⟨"main.c", 2, 9⟩] from rfl) rfl rfl rfl rfl
    MacroTable.wellFormed_initial 0
  exact ⟨session, {}, token, _, next, ran, same.mpr (by simp), by simp [session], rfl⟩

/-- A backslash in the name comes back twice, and an empty name does not come back. -/
theorem line_name_changed :
    (∃ result context, preprocessWithin 40 {} default "#line 5 \"a\\b\"\n__FILE__\n" "main.c" =
      .ok result context ∧ result.tokens.map (·.lexeme) = ["\"a\\\\b\"", ""]) ∧
    ∃ result context, preprocessWithin 40 {} default "#line 5 \"\"\n__FILE__\n" "main.c" =
      .ok result context ∧ result.tokens.map (·.lexeme) = ["\"main.c\"", ""] := by
  let checks (lexemes : List String) (result : Result) : Bool :=
    result.tokens.map (·.lexeme) == lexemes
  constructor
  · obtain ⟨result, context, ran, passed⟩ := @Engine.exists_ok_of_check _
      (preprocessWithin 40 {} default "#line 5 \"a\\b\"\n__FILE__\n" "main.c")
      (checks ["\"a\\\\b\"", ""]) (by decide +kernel)
    exact ⟨result, context, ran, by simpa [checks] using passed⟩
  · obtain ⟨result, context, ran, passed⟩ := @Engine.exists_ok_of_check _
      (preprocessWithin 40 {} default "#line 5 \"\"\n__FILE__\n" "main.c")
      (checks ["\"main.c\"", ""]) (by decide +kernel)
    exact ⟨result, context, ran, by simpa [checks] using passed⟩

end Session

end Preproc
