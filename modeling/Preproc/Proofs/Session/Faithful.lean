import Preproc.Proofs.Regime.Reading
import Preproc.Proofs.Session.Outcome
import Preproc.Proofs.Source.Rescan

/-! # Faithful text

A run without diagnostics gives tokens that a scan could give, wherever they come from: a source,
the body of a macro, an argument, a paste, a stringized argument, or a builtin macro. So whether its
text is scanned to the same tokens again depends only on how neighbours are spelled together. The
text is not always faithful: two tokens that come together because a macro call between them left
nothing are spelled without a space, and may then be scanned as one.
-/

namespace Preproc

open Source Text

section MadeUp

theorem splitNumber_digits {text : List Char} (digits : ∀ c ∈ text, isDigit c = true) :
    splitNumber text = (text, []) := by
  have signs : isDigit '+' = false ∧ isDigit '-' = false := by decide
  fun_induction splitNumber text with
  | case1 => rfl
  | case2 c part => rfl
  | case3 c notPart => simp [isNumberPart, digits c] at notPart
  | case4 c sign rest pair body after found ih =>
    have digit := digits sign (by simp)
    simp only [Bool.and_eq_true, Bool.or_eq_true, beq_iff_eq] at pair
    rcases pair with ⟨_, rfl | rfl⟩
    · simp [signs.1] at digit
    · simp [signs.2] at digit
  | case5 c sign rest _ _ body after found ih =>
    have later := ih (List.forall_mem_cons.mp digits).2
    rw [found] at later
    cases later
    rfl
  | case6 c sign rest _ notPart => simp [isNumberPart, digits c] at notPart

theorem shape_line (line : Nat) : Shape .number (toString line).toList := by
  have digits : ∀ c ∈ Nat.toDigits 10 line, isDigit c = true := by
    intro c member
    have digit := Nat.isDigit_of_mem_toDigits (by decide) (by decide) member
    have ascii : c.toNat < 128 := by
      simp only [Char.isDigit, Bool.and_eq_true, decide_eq_true_eq] at digit
      exact Nat.lt_of_le_of_lt (UInt32.le_iff_toNat_le.mp digit.2) (by decide)
    simp [isDigit, ascii, digit]
  rw [Nat.toString_eq_repr, Nat.toList_repr]
  cases spelled : Nat.toDigits 10 line with
  | nil => exact absurd spelled Nat.toDigits_ne_nil
  | cons c rest =>
    rw [spelled] at digits
    obtain ⟨first, later⟩ := List.forall_mem_cons.mp digits
    refine .number ?_ (splitNumber_digits later)
    cases rest <;> simp [startsNumber, first]

end MadeUp

/-- A token that a scan could give, if it is neither an end nor the opening of a directive, and has
no line break in it. -/
def Token.Scannable (token : Token) : Prop :=
  token.endsLine = false → token.kind ≠ .directive → token.Unbroken →
    Shape token.kind token.lexeme.toList

theorem Token.Scannable.of_shape {token : Token}
    (shape : Shape token.kind token.lexeme.toList) : token.Scannable :=
  fun _ _ _ => shape

/-- What was found right about a macro when it was defined: its parameters are distinct, and there
was no complaint about its body. -/
structure Macro.Presentable (definition : Macro) : Prop where
  distinct : (definition.parameters.map (·.name)).Nodup
  accepted : (Op.compile (firstIndex (definition.parameters.map (·.name)))
    definition.isFunctionLike definition.body).complaints = []

theorem presentable_of_build {name : Token} {parameters : Option (List Parameter)}
    {body : List Token} {place : Location} {definition : Macro}
    (distinct : ∀ declared ∈ parameters, (declared.map Parameter.name).Nodup)
    (built : (Macro.build name parameters body place).1 = .ok definition)
    (silence : (Macro.build name parameters body place).2 = []) : definition.Presentable := by
  rw [Macro.eq_of_checked built]
  cases parameters with
  | none => exact ⟨by simp, silence⟩
  | some declared => exact ⟨distinct declared rfl, silence⟩

variable {file source : String} {includes : IncludeSystem}

theorem scannable_of_mem_scan {scanned : Scanned}
    (member : scanned ∈ scan file source) (flawless : scanned.flaw = none) :
    0 ≤ scanned.token.location.line ∧ scanned.token.Scannable := by
  obtain ⟨line, forms⟩ := shape_of_mem_scan member flawless
  refine ⟨line, fun plain noDirective _ => ?_⟩
  rcases forms with ends | ⟨directive, _⟩ | shape
  · rw [plain] at ends
    cases ends
  · exact absurd directive noDirective
  · exact shape

theorem scannable_of_mem_rescan {text : String} {place : Location} {token : Token}
    (member : token ∈ rescan text place) (flawless : scanFlaws place.file text = []) :
    token.Scannable := by
  obtain ⟨scanned, found, plain, same⟩ := mem_rescan member
  have noFlaw : scanned.flaw = none := by
    cases met : scanned.flaw with
    | none => rfl
    | some flaw =>
      have among : flaw ∈ scanFlaws place.file text :=
        List.mem_filterMap.mpr ⟨scanned, found, met⟩
      rw [flawless] at among
      cases among
  obtain ⟨_, forms⟩ := shape_of_mem_scan found noFlaw
  rw [same]
  refine .of_shape ?_
  unfold placeTogether.place
  rcases forms with ends | ⟨directive, text⟩ | shape
  · rw [plain] at ends
    cases ends
  · rw [directive, text]
    exact .punctuator (by decide)
  · simpa [shape.ne_directive] using shape

namespace Regime

/-- What is kept of a scanner: the tokens that were scanned without flaws are scannable, and lines
are not given negative numbers. -/
structure Scans (kept : Token → Prop) (scanner : Scanner) : Prop where
  lookahead : kept scanner.lookahead
  pending : ∀ scanned ∈ scanner.pending, scanned.flaw = none → kept scanned.token
  numbered : ∀ map ∈ scanner.lineMap, 0 ≤ map.first

/-- Until something is reported, all tokens are scannable. -/
def scannable : Regime where
  silent := true
  place place := 0 ≤ place.line
  token token := 0 ≤ token.location.line ∧ token.Scannable
  entry entry :=
    ((∀ token ∈ entry.definition.body, 0 ≤ token.location.line ∧ token.Scannable) ∧
      0 ≤ entry.definition.endLocation.line) ∧
        (entry.definition.isBuiltin = false → entry.definition.Presentable)
  scanner := Scans fun token => 0 ≤ token.location.line ∧ token.Scannable
  failure _ := True

theorem lawful_scannable : scannable.Lawful where
  unknown := Int.le_refl 0
  token_place kept := kept.1
  endOfInput place := ⟨place, nofun⟩
  spaced _ kept := kept
  relocated kept place := ⟨place, kept.2⟩
  stringized := by
    intro _ _ tokens place spaced _ _ kept
    obtain ⟨text, same, _⟩ := exists_stringize tokens
    refine ⟨kept, fun _ _ unbroken => ?_⟩
    rw [same] at unbroken ⊢
    exact shape_quoteText fun c member => (unbroken c member).1
  line := by
    intro origin place spaced kept here
    refine ⟨here, .of_shape ?_⟩
    obtain ⟨line, same⟩ := Int.eq_ofNat_of_zero_le kept
    rw [same]
    exact shape_line line
  file := by
    intro origin place spaced _ kept
    exact ⟨kept, fun _ _ unbroken => shape_quoteText fun c member => (unbroken c member).1⟩
  pasted := by
    intro _ _ text place _ _ _ _ kept silence token member
    obtain ⟨scanned, _, _, same⟩ := mem_rescan member
    refine ⟨?_, scannable_of_mem_rescan member (silence rfl).1⟩
    rw [same]
    exact kept
  body kept := kept.1.1
  finish kept := kept.1.2
  playable _ := .inr ⟨trivial, trivial⟩
  ordinary _ _ := trivial
  scanner_head := by
    intro scanner kept
    obtain ⟨line, scannable⟩ := kept.lookahead
    unfold Scanner.head Scanner.presumed
    split
    · exact ⟨line, scannable⟩
    next map numbered =>
      have first := kept.numbered map numbered
      refine ⟨?_, scannable⟩
      unfold LineMap.apply
      split
      · exact line
      · simp only [Token.location_relocated]
        omega
  scanner_advance := by
    intro scanner
    unfold Scanner.advance
    split
    · exact .pure fun kept => ⟨kept.lookahead, kept.pending, kept.numbered⟩
    split
    · exact .throw fun _ => trivial
    next next pending whole =>
      refine .bind (.meet scanner.strict next.flaw fun _ => trivial) id fun _ => ?_
      refine .pure fun ⟨kept, silence⟩ => ?_
      have later := kept.pending
      rw [whole] at later
      obtain ⟨here, later⟩ := List.forall_mem_cons.mp later
      exact ⟨here (silence rfl), later, kept.numbered⟩

theorem governs_scannable : scannable.Governs where
  toLawful := lawful_scannable
  rooted _ kept := kept.1
  initial := by
    have builtins : MacroTable.initial.entries.map (·.definition) =
        [Macro.fileBuiltin, Macro.lineBuiltin] := by decide
    intro entry member
    have among : entry.definition ∈ [Macro.fileBuiltin, Macro.lineBuiltin] := by
      exact List.mem_map_of_mem member
    simp only [List.mem_cons, List.not_mem_nil, or_false] at among
    change ((∀ token ∈ entry.definition.body, _) ∧ 0 ≤ entry.definition.endLocation.line) ∧
      (entry.definition.isBuiltin = false → _)
    rcases among with file | line
    · rw [file]
      exact ⟨⟨by simp [Macro.fileBuiltin], by decide⟩, (absurd · (by decide))⟩
    · rw [line]
      exact ⟨⟨by simp [Macro.lineBuiltin], by decide⟩, (absurd · (by decide))⟩
  opened file source strict := by
    unfold Scanner.openSource
    split
    · exact .throw fun _ => trivial
    next first pending whole =>
      refine .bind (.meet strict first.flaw fun _ => trivial) id fun _ => ?_
      have each : ∀ scanned ∈ first :: pending, scanned.flaw = none →
          0 ≤ scanned.token.location.line ∧ scanned.token.Scannable := by
        rw [← whole]
        exact fun scanned => scannable_of_mem_scan
      obtain ⟨here, later⟩ := List.forall_mem_cons.mp each
      exact .pure fun met => ⟨here (met.2 rfl), later, by simp⟩
  renumbered line file kept := by
    refine ⟨kept.lookahead, kept.pending, ?_⟩
    simp [Scanner.renumber]
  built serial declares kept place built silence := by
    refine ⟨?_, fun _ => presentable_of_build (fun declared member => declares declared member rfl)
      built (silence rfl)⟩
    rw [Macro.eq_of_checked built]
    exact ⟨fun token member => (kept token member).1, place⟩

end Regime

/-- A run without diagnostics keeps a table of scannable macros and gives scannable tokens, and the
end after them. -/
theorem kept_of_preprocessWithin {fuel : Nat} {options : Options}
    {result : Result} {context : Context}
    (ran : preprocessWithin fuel options includes source file = .ok result context)
    (quiet : result.diagnostics = []) :
    Regime.scannable.Table context ∧
      ∃ output finish, result.tokens = output ++ [finish] ∧ finish.isEof = true ∧
        ∀ token ∈ output, token.endsLine = false ∧
          (token.Unbroken → Shape token.kind token.lexeme.toList) := by
  obtain ⟨tokens, session, middle, opened, after, read, rfl⟩ := of_preprocessWithin ran
  have governs := Regime.governs_scannable
  have start : Regime.scannable.Guarded { options, includes } :=
    ⟨by simp, governs.endOfInput governs.unknown, rfl, by simp⟩
  have live : Regime.scannable.Live context := fun _ => Array.toList_eq_nil_iff.mp quiet
  obtain ⟨⟨live, _⟩, reads⟩ := governs.readAll fuel fuel _ _ _ _ _ read live
  obtain ⟨_, opens⟩ := governs.push fuel source file _ _ _ _ _ opened live
  obtain ⟨table, _, guarded⟩ := opens governs.initial trivial start
  obtain ⟨table, ⟨output, finish, whole, ended, emitted⟩, _⟩ := reads table trivial guarded
  refine ⟨table, output, finish, whole, ended, fun token member => ?_⟩
  obtain ⟨⟨⟨_, scannable⟩, form⟩, goesOn⟩ := emitted token member
  obtain ⟨plain, noDirective⟩ := form.resolve_left (by simp [goesOn])
  exact ⟨plain, fun unbroken => scannable plain noDirective unbroken⟩

/-- **When the text is faithful.** The text of a run without diagnostics is scanned to the tokens of
the run, apart from the end, exactly when no token has a line break in it and none runs on into what
is spelled after it. -/
theorem text_rescanned_iff {fuel : Nat} {options : Options} {includes : IncludeSystem}
    {source file : String} {result : Result} {context : Context}
    (ran : preprocessWithin fuel options includes source file = .ok result context)
    (quiet : result.diagnostics = []) :
    ∃ output finish, result.tokens = output ++ [finish] ∧ finish.isEof = true ∧
      (∀ token ∈ output, token.isEof = false) ∧
      ∀ place, (∃ found, rescanStrict result.text place = .ok found ∧
          found.map Token.mold = output.map Token.mold) ↔
        (∀ token ∈ output, token.Unbroken) ∧ Token.Separate output := by
  obtain ⟨_, output, finish, whole, ended, emitted⟩ := kept_of_preprocessWithin ran quiet
  refine ⟨output, finish, whole, ended, fun token member => ?_, fun place => ?_⟩
  · have plain := (emitted token member).1
    simp_all [Token.endsLine, Token.isEof]
  · have text : result.text = Token.spell output := by
      rw [Result.text, whole, spell_append_eof ended]
    rw [text]
    exact rescanStrict_spell_iff (fun token member => (emitted token member).1)
      (fun token member => (emitted token member).2) place

/-- A source whose text is faithful: it pastes and stringizes, and one of its calls leaves nothing
between two signs that have a space before them. -/
def spacedSource : String :=
  "#define E\n#define JOIN(a, b) a ## b\n#define STR(x) #x\n" ++
    "- E - JOIN(x, 1) STR(\"q\" + 2) __LINE__\n"

theorem text_rescanned_spacedSource : ∃ result context,
    preprocessWithin 60 {} default spacedSource "main.c" = .ok result context ∧
      result.diagnostics = [] ∧ ∀ place, ∃ found, rescanStrict result.text place = .ok found ∧
        found.map Token.mold = [(.punctuator, "-"), (.punctuator, "-"), (.identifier, "x1"),
          (.string, "\"\\\"q\\\" + 2\""), (.number, "4")] := by
  let checks (result : Result) : Bool :=
    result.diagnostics.isEmpty &&
      result.tokens.dropLast.map Token.mold == [(.punctuator, "-"), (.punctuator, "-"),
        (.identifier, "x1"), (.string, "\"\\\"q\\\" + 2\""), (.number, "4")] &&
      decide ((∀ token ∈ result.tokens.dropLast, token.Unbroken) ∧
        Token.Separate result.tokens.dropLast)
  obtain ⟨result, context, ran, passed⟩ :=
    @Engine.exists_ok_of_check _ (preprocessWithin 60 {} default spacedSource "main.c") checks
      (by decide +kernel)
  simp only [checks, Bool.and_eq_true, List.isEmpty_iff, beq_iff_eq, decide_eq_true_eq] at passed
  obtain ⟨⟨quiet, molds⟩, apart⟩ := passed
  refine ⟨result, context, ran, quiet, fun place => ?_⟩
  obtain ⟨output, finish, whole, _, _, faithful⟩ := text_rescanned_iff ran quiet
  rw [whole, List.dropLast_concat] at molds apart
  rw [← molds]
  exact (faithful place).mpr apart

/-- Two signs with a call between them that leaves nothing are scanned as one, and the name of a
file with a line break in it is not scanned at all. -/
theorem text_not_rescanned :
    (∃ result context,
      preprocessWithin 40 {} default "#define E\n+E+\n" "main.c" = .ok result context ∧
        result.diagnostics = [] ∧
        result.tokens.map Token.mold = [(.punctuator, "+"), (.punctuator, "+"), (.eof, "")] ∧
        ∀ place, ∃ found, rescanStrict result.text place = .ok found ∧
          found.map Token.mold = [(.punctuator, "++")]) ∧
      ∃ result context,
        preprocessWithin 40 {} default "__FILE__\n" "a\nb.c" = .ok result context ∧
          result.diagnostics = [] ∧
          result.tokens.map Token.mold = [(.string, "\"a\nb.c\""), (.eof, "")] ∧
          ∀ place found, rescanStrict result.text place ≠ .ok found := by
  let checks (molds : List (TokenKind × String)) (text : String) (result : Result) : Bool :=
    result.diagnostics.isEmpty && result.tokens.map Token.mold == molds && result.text == text
  constructor
  · obtain ⟨result, context, ran, passed⟩ :=
      @Engine.exists_ok_of_check _ (preprocessWithin 40 {} default "#define E\n+E+\n" "main.c")
        (checks [(.punctuator, "+"), (.punctuator, "+"), (.eof, "")] "++") (by decide +kernel)
    simp only [checks, Bool.and_eq_true, List.isEmpty_iff, beq_iff_eq] at passed
    obtain ⟨⟨quiet, molds⟩, text⟩ := passed
    refine ⟨result, context, ran, quiet, molds, fun place => ⟨rescan result.text place, ?_, ?_⟩⟩
    · rw [rescanStrict_eq_ok_iff, text]
      exact ⟨by decide +kernel, rfl⟩
    · rw [molds_rescan, text]
      decide +kernel
  · obtain ⟨result, context, ran, passed⟩ :=
      @Engine.exists_ok_of_check _ (preprocessWithin 40 {} default "__FILE__\n" "a\nb.c")
        (checks [(.string, "\"a\nb.c\""), (.eof, "")] "\"a\nb.c\"") (by decide +kernel)
    simp only [checks, Bool.and_eq_true, List.isEmpty_iff, beq_iff_eq] at passed
    obtain ⟨⟨quiet, molds⟩, text⟩ := passed
    refine ⟨result, context, ran, quiet, molds, fun place found scanned => ?_⟩
    rw [rescanStrict_eq_ok_iff, text] at scanned
    exact absurd scanned.1 (by decide +kernel)

end Preproc
