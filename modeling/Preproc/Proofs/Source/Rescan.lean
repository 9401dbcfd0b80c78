import Preproc.Proofs.Source.Layout

/-! # Scanning text again

Text that was made up from tokens can be scanned again. What a source is spelled as gives its tokens
back, all at one place, and what is stringized is one literal. A scan that stops at the first flaw
and one that reports all flaws tell the same.

Main statements: `rescan_spell`, `rescan_stringize` and `scanStrict_iff_reported`.
-/

namespace Preproc

open Source

/-! ### Flaws -/

/-- **A scan that stops and one that goes on.** A scan stops at a flaw exactly when some flaw is
reported where it goes on, and the first that is reported stands at the same place. Without flaws
both give the same tokens. -/
theorem scanStrict_iff_reported (file source : String) (context : Context) :
    ∃ next reported,
      ((scanFlaws file source).forM Engine.reportFlaw) context = .ok () next ∧
      next.sink.diagnostics.toList = context.sink.diagnostics.toList ++ reported ∧
      ((∃ flaw, scanStrict file source = .error flaw) ↔ reported ≠ []) ∧
      (∀ flaw, scanStrict file source = .error flaw → ∃ first ∈ reported.head?,
        first.line = some flaw.location.line ∧ first.column = some flaw.location.column) ∧
      (reported = [] → scanStrict file source = .ok (scanTokens file source)) := by
  obtain ⟨next, runs, diagnostics⟩ := forM_reportFlaw (scanFlaws file source) context
  refine ⟨next, _, runs, diagnostics, ?_⟩
  rw [scanStrict_eq]
  cases scanFlaws file source with
  | nil => simp
  | cons flaw flaws => simp [Sink.diagnosticOf]

theorem Engine.rescan_of_strict {text : String} {place : Location} {tokens : List Token}
    (found : rescanStrict text place = .ok tokens) (context : Context) :
    Engine.rescan text place context = .ok tokens context := by
  obtain ⟨flawless, rfl⟩ := rescanStrict_eq_ok_iff.mp found
  unfold Engine.rescan
  rw [scanFlaws_eq_nil_iff.mpr flawless]
  rfl

/-! ### Spelled tokens -/

theorem shaped_spelled {file source : String} (flawless : scanFlaws file source = []) :
    ∀ token ∈ Token.spelled (scanTokens file source), token.Shaped ∧ token.Unbroken := by
  intro token member
  obtain ⟨original, kept, rfl⟩ := List.mem_map.mp member
  obtain ⟨among, inside⟩ := List.mem_filter.mp kept
  have inside : original.endsLine = false := by simpa using inside
  have unbroken : original.Unbroken := unbroken_of_mem_scanTokens among inside
  refine ⟨?_, unbroken⟩
  obtain ⟨scanned, found, rfl⟩ := List.mem_map.mp among
  have noFlaw : scanned.flaw = none := List.filterMap_eq_nil_iff.mp flawless scanned found
  rcases (shape_of_mem_scan found noFlaw).2 with ends | ⟨directive, text⟩ | shape
  · rw [inside] at ends
    cases ends
  · refine ⟨?_, by simp [Token.plain, directive]⟩
    simpa [Token.plain, directive, text] using Shape.punctuator (by decide)
  · rw [Token.plain_of_ne shape.ne_directive]
    refine ⟨shape, fun newline => ?_⟩
    simp [Token.endsLine, newline] at inside

/-- **Spelled and scanned again.** A source without flaws is spelled as a text that gives its tokens
again, without ends of lines, and with one place for all. -/
theorem rescan_spell {file source : String} (flawless : scanFlaws file source = [])
    (place : Location) :
    let kept := (scanTokens file source).filter fun token => !token.endsLine
    ∃ found, rescanStrict (Token.spell (scanTokens file source)) place = .ok found ∧
      (∀ context, Engine.rescan (Token.spell (scanTokens file source)) place context =
        .ok found context) ∧
      found.map (·.lexeme) = kept.map (·.lexeme) ∧
      found.map (·.kind) = kept.map (fun token =>
        if token.kind = .directive then .punctuator else token.kind) ∧
      found.map (·.leadingSpace) = (kept.map (·.leadingSpace)).modifyHead (fun _ => false) ∧
      ∀ token ∈ found, token.location = place := by
  have found := rescanStrict_spell (fun token member => (shaped_spelled flawless token member).1)
    (fun token member => (shaped_spelled flawless token member).2)
    (separate_spelled (begun_cut _)).1 place
  refine ⟨_, found, Engine.rescan_of_strict found, ?_⟩
  rw [placeTogether_eq, Token.spelled]
  generalize (scanTokens file source).filter (fun token => !token.endsLine) = kept
  cases kept with
  | nil => simp
  | cons first rest => simp [Token.plain, Token.relocated, Token.withLeadingSpace]

/-- Gaps of all kinds become spaces, and nothing runs on where there was none. -/
theorem rescan_spell_lines :
    let source := "#if x/**/y\n  # - --1e+ +2 // end\nL'c' u8\"s\"."
    let place : Location := ⟨"t.c", 7, 3⟩
    scanFlaws "s.c" source = [] ∧
      ∃ found, rescanStrict (Token.spell (scanTokens "s.c" source)) place = .ok found ∧
        found.map (·.lexeme) =
          ["#", "if", "x", "y", "#", "-", "--", "1e+", "+", "2", "L'c'", "u8\"s\"", "."] ∧
        found.map (·.leadingSpace) = [false, false, true, true, true, true, true, false, true,
          false,
          true, true, false] := by
  intro source place
  have flawless : scanFlaws "s.c" source = [] := by decide +kernel
  obtain ⟨found, strict, _, lexemes, _, spaces, _⟩ := rescan_spell flawless place
  exact ⟨flawless, found, strict, lexemes.trans (by decide +kernel),
    spaces.trans (by decide +kernel)⟩

/-! ### Stringized tokens -/

theorem escapeQuoted_append (front back : List Char) :
    escapeQuoted (front ++ back) = escapeQuoted front ++ escapeQuoted back := by
  induction front with
  | nil => rfl
  | cons c front ih =>
    simp only [List.cons_append, escapeQuoted, ih]
    split <;> rfl

variable {text : List Char}

theorem mem_of_mem_escapeQuoted {c : Char} (member : c ∈ escapeQuoted text) :
    c = '\\' ∨ c ∈ text := by
  induction text with
  | nil => cases member
  | cons d text ih =>
    unfold escapeQuoted at member
    split at member <;> grind

theorem mem_escapeQuoted {c : Char} (member : c ∈ text) : c ∈ escapeQuoted text := by
  obtain ⟨front, back, rfl⟩ := List.append_of_mem member
  rw [escapeQuoted_append]
  refine List.mem_append_right _ ?_
  unfold escapeQuoted
  split <;> simp

theorem splitQuoted_escapeQuoted (plain : ∀ c ∈ text, c ≠ '\n') :
    splitQuoted '\x22' (escapeQuoted text ++ ['\x22']) =
      (escapeQuoted text ++ ['\x22'], true, []) := by
  induction text with
  | nil => rfl
  | cons c text ih =>
    obtain ⟨notNewline, later⟩ := List.forall_mem_cons.mp plain
    have rest := ih later
    unfold escapeQuoted
    by_cases escaped : (c == '\\' || c == '\x22') = true
    · simp [escaped, splitQuoted, notNewline, rest]
    · obtain ⟨next, after, spelled⟩ : ∃ next after,
          escapeQuoted text ++ ['\x22'] = next :: after := by
        cases escapeQuoted text <;> simp
      rw [spelled] at rest
      simp only [Bool.or_eq_true, beq_iff_eq, not_or] at escaped
      simp [escaped, spelled, splitQuoted, notNewline, rest]

theorem shape_quoteText {text : String} (plain : ∀ c ∈ (quoteText text).toList, c ≠ '\n') :
    Shape .string (quoteText text).toList := by
  have spelled : (quoteText text).toList =
      [] ++ '\x22' :: (escapeQuoted text.toList ++ ['\x22']) := by
    simp [quoteText]
  rw [spelled] at plain ⊢
  have inside : ∀ c ∈ text.toList, c ≠ '\n' := by
    intro c member
    exact plain c (by simp [mem_escapeQuoted member])
  exact .literal (by decide) (by decide) (splitQuoted_escapeQuoted inside)

/-- A text with each escaped backslash and each escaped quote as it was. -/
def unescapeQuoted : List Char → List Char
  | [] => []
  | '\\' :: '\\' :: rest => '\\' :: unescapeQuoted rest
  | '\\' :: '\x22' :: rest => '\x22' :: unescapeQuoted rest
  | c :: rest => c :: unescapeQuoted rest

theorem unescapeQuoted_escapeQuoted (text : List Char) :
    unescapeQuoted (escapeQuoted text) = text := by
  induction text with
  | nil => rfl
  | cons c text ih =>
    unfold escapeQuoted
    by_cases backslash : c = '\\'
    · simp [backslash, unescapeQuoted, ih]
    by_cases quote : c = '\x22'
    · simp [quote, unescapeQuoted, ih]
    · simp [backslash, quote, unescapeQuoted, ih]

/-- The literal of tokens is that of a text, which is their spelling where none of them ends a
line. -/
theorem exists_stringize (tokens : List Token) : ∃ text, Token.stringize tokens = quoteText text ∧
    ((∀ token ∈ tokens, token.endsLine = false) → text = Token.spell tokens) := by
  have joined (rest : List Token) :
      (String.join (rest.map Token.quotedAfter)).toList = escapeQuoted (Token.following rest) := by
    induction rest with
    | nil => rfl
    | cons token rest ih =>
      have one : token.quotedAfter.toList =
          escapeQuoted (token.space ++ token.lexeme.toList) := by
        unfold Token.quotedAfter Token.space
        split <;> simp [escapeQuoted]
      rw [List.map_cons, String.join_cons, String.toList_append, one, ih,
        ← escapeQuoted_append]
      simp [Token.following]
  have quoted {text : List Char} (inside : (Token.quotedInside tokens).toList = escapeQuoted text) :
      Token.stringize tokens = quoteText (String.ofList text) := by
    rw [← String.toList_inj]
    simp [Token.stringize, quoteText, inside]
  cases tokens with
  | nil => exact ⟨"", rfl, fun _ => rfl⟩
  | cons first rest =>
    by_cases ends : first.endsLine = true
    · refine ⟨_, quoted (by simp [Token.quotedInside, ends, joined]; rfl), fun kept => ?_⟩
      rw [(List.forall_mem_cons.mp kept).1] at ends
      cases ends
    · refine ⟨_, quoted (by simp [Token.quotedInside, ends, joined, ← escapeQuoted_append]; rfl),
        fun kept => ?_⟩
      have kept : (first :: rest).filter (fun token => !token.endsLine) = first :: rest :=
        List.filter_eq_self.mpr (by simpa using kept)
      rw [← String.toList_inj, toList_spell, kept]
      rw [List.filter_cons_of_pos (by simpa using ends)] at kept
      simp [Token.following, Token.space, Token.withLeadingSpace, (List.cons.inj kept).2]

/-- A token that was scanned from a source or from made-up text. -/
def Token.Read (token : Token) : Prop :=
  (∃ file source, token ∈ scanTokens file source) ∨ ∃ text place, token ∈ rescan text place

theorem Token.Read.unbroken {token : Token} (read : token.Read) (inside : token.endsLine = false) :
    token.Unbroken := by
  rcases read with ⟨file, source, member⟩ | ⟨text, place, member⟩
  · exact unbroken_of_mem_scanTokens member inside
  · obtain ⟨scanned, found, inside, same⟩ := mem_rescan member
    rw [same]
    have unbroken : scanned.token.Unbroken :=
      unbroken_of_mem_scanTokens (List.mem_map_of_mem found) inside
    exact unbroken

theorem rescanStrict_quoteText {text : String} (plain : ∀ c ∈ text.toList, c ≠ '\n' ∧ c ≠ '\r')
    (place : Location) :
    rescanStrict (quoteText text) place = .ok [⟨.string, quoteText text, place, false⟩] := by
  have unbroken : ∀ c ∈ (quoteText text).toList, c ≠ '\n' ∧ c ≠ '\r' := by
    intro c member
    simp only [quoteText, String.toList_append, String.toList_ofList, List.mem_append] at member
    rcases member with (quote | inside) | quote
    · obtain rfl : c = '\x22' := by simpa using quote
      decide
    · rcases mem_of_mem_escapeQuoted inside with rfl | inside
      · decide
      · exact plain c inside
    · obtain rfl : c = '\x22' := by simpa using quote
      decide
  have shape := shape_quoteText fun c member => (unbroken c member).1
  exact @rescanStrict_following [⟨.string, quoteText text, place, false⟩] _
    (by simp [Token.following, Token.space]) (List.forall_mem_singleton.mpr ⟨shape, nofun⟩)
    (List.forall_mem_singleton.mpr unbroken) ⟨rfl, trivial⟩ place

/-- **Stringized and scanned again.** The literal of tokens on a line is scanned as one string, and
without its quotes and escapes it is the spelling of the tokens. -/
theorem rescan_stringize {tokens : List Token}
    (read : ∀ token ∈ tokens, token.Read ∧ token.endsLine = false) (place : Location) :
    let literal : Token := ⟨.string, Token.stringize tokens, place, false⟩
    rescanStrict (Token.stringize tokens) place = .ok [literal] ∧
      (∀ context, Engine.rescan (Token.stringize tokens) place context = .ok [literal] context) ∧
      ∃ inside, Token.stringize tokens = "\"" ++ inside ++ "\"" ∧
        unescapeQuoted inside.toList = (Token.spell tokens).toList := by
  intro literal
  obtain ⟨text, same, spelled⟩ := exists_stringize tokens
  obtain rfl := spelled fun token member => (read token member).2
  have plain : ∀ c ∈ (Token.spell tokens).toList, c ≠ '\n' ∧ c ≠ '\r' := by
    have all : tokens.filter (fun token => !token.endsLine) = tokens :=
      List.filter_eq_self.mpr (by simpa using fun token member => (read token member).2)
    rw [toList_spell, all]
    have unbroken := fun token member => (read token member).1.unbroken (read token member).2
    cases tokens with
    | nil => simp [Token.following]
    | cons first rest =>
      rw [List.forall_mem_cons] at unbroken
      exact unbroken_following (List.forall_mem_cons.mpr unbroken)
  have found : rescanStrict (Token.stringize tokens) place = .ok [literal] := by
    simpa only [literal, same] using rescanStrict_quoteText plain place
  refine ⟨found, Engine.rescan_of_strict found,
    String.ofList (escapeQuoted (Token.spell tokens).toList), same, ?_⟩
  rw [String.toList_ofList, unescapeQuoted_escapeQuoted]

/-- Escapes, a stray backslash and a literal that is left unfinished. -/
theorem rescan_stringize_unfinished :
    let tokens := (scanTokens "s.c" "'\\'' \\ \"\\\\\" \"un\\").dropLast
    let text := "\"'\\\\'' \\\\ \\\"\\\\\\\\\\\" \\\"un\\\\\""
    let place : Location := ⟨"t.c", 7, 3⟩
    (∀ token ∈ tokens, token.Read ∧ token.endsLine = false) ∧ tokens.length = 4 ∧
      Token.stringize tokens = text ∧
      rescanStrict (Token.stringize tokens) place = .ok [⟨.string, text, place, false⟩] := by
  intro tokens text place
  have inside : ∀ token ∈ tokens, token.endsLine = false := by decide +kernel
  have read : ∀ token ∈ tokens, token.Read ∧ token.endsLine = false := fun token member =>
    ⟨.inl ⟨"s.c", _, List.dropLast_subset _ member⟩, inside token member⟩
  have same : Token.stringize tokens = text := by decide +kernel
  refine ⟨read, by decide +kernel, same, (rescan_stringize read place).1.trans ?_⟩
  rw [same]

end Preproc
