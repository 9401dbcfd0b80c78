import Preproc.Engine
import Preproc.Proofs.Source.Stretch

/-! # The layout of a scanned text

A scan accounts for every character of the logical text: the text is made of gaps and of the texts
of the tokens, in order. `Placed.Fits` gathers what holds of a token and the gap before it, and
`Laid` says so of all of them. The only comment that can be left open is at the very end, and it is
reported once.

Main statement: `scan_laid`.
-/

namespace Preproc

open Source

namespace Source

/-- Whether a comment is left open. -/
def Trivia.isUnclosed : Trivia → Bool
  | .blockComment _ false => true
  | _ => false

/-- What stands before a text: a blank, a comment that the end of its line ends, or a comment up to
its first closing delimiter. A comment without one takes all of the text. -/
def Trivia.Fits (after : List Char) : Trivia → Prop
  | .blank c => isBlank c = true
  | .lineComment body => '\n' ∉ body ∧ after.head?.all (· == '\n') = true
  | .blockComment body closed => ¬ ['*', '/'] <:+: body ∧ (closed = false → after = [])

/-- What stands in a gap before a text. -/
def GapFits : List Trivia → List Char → Prop
  | [], _ => True
  | trivia :: gap, after => trivia.Fits (gapText gap ++ after) ∧ GapFits gap after

theorem splitComment_fits (text : List Char) : ¬ ['*', '/'] <:+: (splitComment text).1 := by
  fun_induction splitComment text with
  | case1 => simp
  | case2 rest => simp
  | case3 c rest notClosed body after split ih =>
    have whole := splitComment_text rest
    rw [split] at ih whole
    rw [List.infix_cons_iff]
    rintro (front | later)
    · obtain ⟨rfl, more, rfl⟩ : c = '*' ∧ ∃ more, body = '/' :: more := by
        obtain ⟨more, same⟩ := front
        simp only [List.cons_append, List.nil_append, List.cons.injEq] at same
        exact ⟨same.1.symm, more, same.2.symm⟩
      exact notClosed _ rfl whole.symm
    · exact ih later

theorem trivia?_fits {text rest : List Char} {trivia : Trivia}
    (cut : trivia? text = some (trivia, rest)) : trivia.Fits rest := by
  unfold trivia? at cut
  split at cut
  next body =>
    cases cut
    have stops := List.head?_dropWhile_not (· != '\n') body
    refine ⟨?_, ?_⟩
    · intro member
      simpa using List.all_eq_true.mp List.all_takeWhile '\n' member
    · cases found : (body.dropWhile (· != '\n')).head? with
      | none => rfl
      | some c => simpa [found] using stops
  next body =>
    have fits := splitComment_fits body
    split at cut <;> rename_i split <;> cases cut <;> rw [split] at fits
    · exact ⟨fits, by rintro ⟨⟩⟩
    · exact ⟨fits, fun _ => rfl⟩
  next c rest' _ _ =>
    split at cut
    next blank =>
      cases cut
      exact blank
    next => cases cut
  next => cases cut

theorem gapFits_splitGap (text : List Char) : GapFits (splitGap text).1 (splitGap text).2 := by
  fun_induction splitGap text with
  | case1 text missing => trivial
  | case2 text trivia rest found gap after split ih =>
    have behind := splitGap_text rest
    rw [split] at ih behind
    refine ⟨?_, ih⟩
    rw [behind]
    exact trivia?_fits found

theorem GapFits.closed {gap : List Trivia} {after : List Char} (fits : GapFits gap after)
    (more : after ≠ []) : ∀ trivia ∈ gap, trivia.isUnclosed = false := by
  induction gap with
  | nil => simp
  | cons trivia gap ih =>
    refine List.forall_mem_cons.mpr ⟨?_, ih fits.2⟩
    obtain ⟨here, -⟩ := fits
    cases trivia with
    | blank | lineComment => rfl
    | blockComment body closed =>
      cases closed with
      | true => rfl
      | false => exact absurd (List.append_eq_nil_iff.mp (here.2 rfl)).2 more

def GapsFit (lastGap : List Trivia) : List Piece → Prop
  | [] => GapFits lastGap []
  | piece :: rest =>
    GapFits piece.gap (piece.lexeme.text ++ writing rest lastGap) ∧ GapsFit lastGap rest

theorem gapsFit_cut (text : List Char) : GapsFit (cut text).lastGap (cut text).pieces := by
  fun_induction cut text with
  | case1 text gap split =>
    have fits := gapFits_splitGap text
    rwa [split] at fits
  | case2 text gap c rest split whole ih =>
    have fits := gapFits_splitGap text
    rw [split] at fits
    have later : writing whole.pieces whole.lastGap = (splitLexeme c rest).2 :=
      cut_text (splitLexeme c rest).2
    refine ⟨?_, ih⟩
    rwa [later, splitLexeme_text]

theorem length_le_of_punctuator? {text mark other : List Char}
    (found : punctuator? text = some mark)
    (listed : other ∈ punctuators) (fits : other <+: text) : other.length ≤ mark.length := by
  have sorted : punctuators.Pairwise fun first second => second.length ≤ first.length := by decide
  obtain ⟨_, before, after, whole, skipped⟩ := List.find?_eq_some_iff_append.mp found
  rw [whole, List.mem_append, List.mem_cons] at listed
  rw [whole, List.pairwise_append] at sorted
  rcases listed with earlier | rfl | later
  · have unfit := skipped other earlier
    simp [List.isPrefixOf_iff_prefix.mpr fits] at unfit
  · exact Nat.le_refl _
  · exact List.rel_of_pairwise_cons sorted.2.1 later

variable {lexeme : Lexeme} {after : List Char}

theorem punctuator?_of_begins (begins : Begins (lexeme.text ++ after) lexeme after)
    (punctuator : lexeme.kind = .punctuator) :
    punctuator? (lexeme.text ++ after) = some lexeme.text := by
  obtain ⟨-, c, rest, whole, split⟩ := begins
  rw [whole]
  unfold splitLexeme at split
  split at split
  · cases split
    cases punctuator
  split at split
  next found fits =>
    have kind := kind_of_literal? fits
    rw [split, punctuator] at kind
    simp at kind
  split at split
  · cases split
    cases punctuator
  split at split
  · cases split
    cases punctuator
  split at split
  next mark fits =>
    cases split
    exact fits
  next =>
    cases split
    cases punctuator

theorem kind_of_hash (begins : Begins (lexeme.text ++ after) lexeme after)
    (hash : lexeme.text = ['#']) : lexeme.kind = .punctuator := by
  obtain ⟨-, c, rest, whole, split⟩ := begins
  obtain ⟨rfl, rfl⟩ : '#' = c ∧ after = rest := by simpa [hash] using whole
  have noLiteral : literal? ('#' :: after) = none :=
    literal?_of_unmarked (by decide) (by decide) (by decide) (by decide)
  have noNumber : startsNumber ('#' :: after) = false := by
    cases after with
    | nil => decide
    | cons next after => exact show (Text.isDigit '#' || false) = false by decide
  unfold splitLexeme at split
  rw [if_neg (by decide), noLiteral] at split
  dsimp only at split
  rw [if_neg (by simp [noNumber]), if_neg (by decide)] at split
  split at split
  next => rw [← congrArg (fun found => found.1.kind) split]
  next missing => exact absurd (List.find?_eq_none.mp missing ['#'] (by decide)) (by simp)

end Source

/-- A token and the gap before it. -/
structure Placed where
  gap : List Trivia
  token : Token

/-- What was written. -/
def Placed.text (placed : Placed) : List Char :=
  gapText placed.gap ++ placed.token.lexeme.toList

/-- What holds of a token and of the gap before it, given whether a line begins there, the positions
from there on and the text behind the token. -/
structure Placed.Fits (file : String) (lineStart : Bool) (positions : List Position)
    (placed : Placed) (after : List Char) : Prop where
  solid : placed.token.Solid
  gap : GapFits placed.gap (placed.token.lexeme.toList ++ after)
  closed : ∀ trivia ∈ placed.gap, trivia.isUnclosed = false
  /-- The token is placed at its first character. -/
  located : ∃ position, positions[(gapText placed.gap).length]? = some position ∧
    placed.token.location = ⟨file, position.line, position.column⟩
  spaced : placed.token.kind ≠ .newline →
    (placed.token.leadingSpace = true ↔ placed.gap ≠ [] ∨ lineStart = true)
  directive : placed.token.kind = .directive ↔ placed.token.lexeme = "#" ∧ lineStart = true
  unbroken : placed.token.kind ≠ .newline → '\n' ∉ placed.token.lexeme.toList
  longest : placed.token.kind = .punctuator → placed.token.lexeme.toList ∈ punctuators ∧
    ∀ mark ∈ punctuators, mark <+: placed.token.lexeme.toList ++ after →
      mark.length ≤ placed.token.lexeme.toList.length

/-- **The layout of a text**: each token fits what is written from its gap on, and the end of the
input stands at the position behind the last gap. -/
def Laid (file : String) (lastGap : List Trivia) (finish : Token) :
    (lineStart : Bool) → List Position → List Placed → Prop
  | _, positions, [] => GapFits lastGap [] ∧ ∃ position,
    positions.drop (gapText lastGap).length = [position] ∧
      finish = .endOfInput ⟨file, position.line, position.column⟩
  | lineStart, positions, placed :: rest =>
    placed.Fits file lineStart positions (rest.flatMap Placed.text ++ gapText lastGap) ∧
      Laid file lastGap finish (placed.token.kind == .newline) (positions.drop placed.text.length)
        rest

section Tokens

variable {lexeme : Lexeme} {after : List Char} (begins : Begins (lexeme.text ++ after) lexeme after)
  (location : Location) (spaced lineStart : Bool)
include begins

theorem directive_tokenOf_iff : (tokenOf lexeme location spaced lineStart).kind = .directive ↔
    (tokenOf lexeme location spaced lineStart).lexeme = "#" ∧ lineStart = true := by
  have same : (tokenOf lexeme location spaced lineStart).lexeme = "#" ↔ lexeme.text = ['#'] := by
    rw [← String.toList_inj]
    exact iff_of_eq (congrArg (· = _) String.toList_ofList)
  have never : lexeme.kind ≠ .directive := by
    obtain ⟨-, c, rest, -, split⟩ := begins
    have kinds := kind_splitLexeme c rest
    rw [split] at kinds
    exact kinds.2
  rw [same]
  unfold tokenOf
  dsimp only
  split
  next opens =>
    simp only [Bool.and_eq_true, beq_iff_eq] at opens
    simp [opens]
  next plain =>
    simp only [never, false_iff, not_and]
    intro hash starts
    simp [kind_of_hash begins hash, hash, starts] at plain

theorem longest_tokenOf (punctuator : (tokenOf lexeme location spaced lineStart).kind = .punctuator)
    :
    lexeme.text ∈ punctuators ∧
      ∀ mark ∈ punctuators, mark <+: lexeme.text ++ after → mark.length ≤ lexeme.text.length := by
  have kind : lexeme.kind = .punctuator := by
    rw [← kind_tokenOf (by rw [punctuator]; decide), punctuator]
  have found := punctuator?_of_begins begins kind
  exact ⟨List.mem_of_find?_eq_some found, fun _ => length_le_of_punctuator? found⟩

end Tokens

theorem fits_of_begins {lexeme : Lexeme} {gap : List Trivia} {after : List Char}
    {positions : List Position} (begins : Begins (lexeme.text ++ after) lexeme after)
    (gapFits : GapFits gap (lexeme.text ++ after)) (file : String) (lineStart : Bool)
    (long : (gapText gap).length < positions.length) :
    Placed.Fits file lineStart positions
      ⟨gap, tokenOf lexeme (placeAt file (positions.drop (gapText gap).length)) (!gap.isEmpty)
        lineStart⟩ after := by
  have more : lexeme.text ++ after ≠ [] := by
    obtain ⟨-, c, rest, whole, -⟩ := begins
    simp [whole]
  have located : placeAt file (positions.drop (gapText gap).length) =
      ⟨file, positions[(gapText gap).length].line, positions[(gapText gap).length].column⟩ := by
    rw [placeAt, List.drop_eq_getElem_cons long]
    rfl
  generalize placeAt file (positions.drop (gapText gap).length) = location at located
  have newline := newline_tokenOf lexeme location (!gap.isEmpty) lineStart
  have text : (tokenOf lexeme location (!gap.isEmpty) lineStart).lexeme.toList = lexeme.text :=
    String.toList_ofList
  refine ⟨solid_tokenOf begins .., ?_, gapFits.closed more,
    ⟨_, List.getElem?_eq_getElem long, located⟩, ?_, directive_tokenOf_iff begins .., ?_, ?_⟩
  · rwa [text]
  · intro notNewline
    have kind : lexeme.kind ≠ .newline := by simp_all
    simp [tokenOf, kind]
  · intro notNewline member
    rw [text] at member
    exact ne_newline_of_begins begins (by simp_all) '\n' member rfl
  · intro punctuator
    rw [text]
    exact longest_tokenOf begins _ _ _ punctuator

theorem laid_placePieces {pieces : List Piece} {lastGap : List Trivia} (file : String)
    (begun : Begun lastGap pieces) (fits : GapsFit lastGap pieces) {lineStart : Bool}
    {positions : List Position} (long : positions.length = (writing pieces lastGap).length + 1) :
    ∃ placed finish,
      (placePieces file lineStart positions pieces lastGap).map (·.token) =
        placed.map Placed.token ++ [finish] ∧
      placed.flatMap Placed.text = pieces.flatMap Piece.text ∧
      Laid file lastGap finish lineStart positions placed := by
  induction pieces generalizing lineStart positions with
  | nil =>
    have single : (positions.drop (gapText lastGap).length).length = 1 := by
      simp [long, writing]
    obtain ⟨position, last⟩ := List.length_eq_one_iff.mp single
    refine ⟨[], _, rfl, rfl, fits, position, last, ?_⟩
    rw [last]
    rfl
  | cons piece pieces ih =>
    obtain ⟨here, later⟩ := begun
    obtain ⟨gap, gaps⟩ := fits
    have length : (writing (piece :: pieces) lastGap).length =
        (gapText piece.gap).length + piece.lexeme.text.length +
          (writing pieces lastGap).length := by
      simp [writing, Piece.text, Nat.add_assoc]
    have shorter : ((positions.drop (gapText piece.gap).length).drop
        piece.lexeme.text.length).length = (writing pieces lastGap).length + 1 := by
      simp only [List.length_drop]
      omega
    have first := fits_of_begins here gap file lineStart
      (show (gapText piece.gap).length < positions.length by omega)
    obtain ⟨placed, finish, tokens, text, laid⟩ :=
      @ih later gaps (piece.lexeme.kind == .newline) _ shorter
    have same : (writing pieces lastGap) = placed.flatMap Placed.text ++ gapText lastGap := by
      rw [text]
    refine ⟨⟨piece.gap, _⟩ :: placed, finish, ?_, ?_, same ▸ first, ?_⟩
    · rw [placePieces, List.map_cons, tokens]
      rfl
    · rw [List.flatMap_cons, List.flatMap_cons, text]
      simp [Placed.text, Piece.text, tokenOf]
    · rw [newline_tokenOf]
      simpa [Placed.text, tokenOf, List.drop_drop] using laid

theorem isSome_unclosedAt? (gap : List Trivia) :
    (unclosedAt? gap).isSome = gap.any Trivia.isUnclosed := by
  fun_induction unclosedAt? gap with
  | case1 => rfl
  | case2 body rest => rfl
  | case3 trivia rest closed ih =>
    have closed : trivia.isUnclosed = false := by
      cases trivia with
      | blank | lineComment => rfl
      | blockComment body open_ =>
        cases open_ with
        | true => rfl
        | false => exact absurd rfl (closed body)
    simp [closed, ih]

theorem countP_flaws {pieces : List Piece} {lastGap : List Trivia} {file : String}
    {lineStart : Bool}
    {positions : List Position} (literals : ∀ piece ∈ pieces, ∀ flaw ∈ piece.lexeme.unfinishedAt,
      flaw.1 ≠ .blockComment) :
    ((placePieces file lineStart positions pieces lastGap).filterMap (·.flaw)).countP
      (fun flaw => (Engine.noticeOf flaw.what).code == "PPS-LX-0402") =
        if lastGap.any Trivia.isUnclosed then 1 else 0 := by
  induction pieces generalizing lineStart positions with
  | nil =>
    rw [← isSome_unclosedAt?, placePieces]
    cases unclosedAt? lastGap with
    | none => rfl
    | some offset => rfl
  | cons piece pieces ih =>
    obtain ⟨here, later⟩ := List.forall_mem_cons.mp literals
    have rest := @ih (piece.lexeme.kind == .newline)
      ((positions.drop (gapText piece.gap).length).drop piece.lexeme.text.length) later
    rw [placePieces, List.filterMap_cons]
    cases unfinished : piece.lexeme.unfinishedAt with
    | none => exact rest
    | some flaw =>
      have literal : (Engine.noticeOf flaw.1).code ≠ "PPS-LX-0402" := by
        have kind := here flaw unfinished
        revert kind
        cases flaw.1 <;> decide
      dsimp only [Option.map]
      rw [List.countP_cons_of_neg (by simpa using literal)]
      exact rest

theorem forM_reportFlaw (flaws : List Flaw) (context : Context) :
    ∃ next, (flaws.forM Engine.reportFlaw) context = .ok () next ∧
      next.sink.diagnostics.toList = context.sink.diagnostics.toList ++
        flaws.map fun flaw => context.sink.diagnosticOf flaw.location
          (Engine.noticeOf flaw.what) := by
  induction flaws generalizing context with
  | nil => exact ⟨context, rfl, by simp⟩
  | cons flaw flaws ih =>
    obtain ⟨next, rest, diagnostics⟩ := ih
      { context with
        sink := context.sink.report flaw.location (Engine.noticeOf flaw.what)
        events := context.events.push (.reported
          (context.sink.diagnosticOf flaw.location (Engine.noticeOf flaw.what))) }
    refine ⟨next, rest, ?_⟩
    rw [diagnostics]
    simp [Sink.report, Sink.record, Sink.diagnosticOf, Sink.severityOf]

/-- **A scan loses nothing.** The logical text of a source is made of gaps and of the texts of its
tokens, each of which fits its place. A comment is left open only in the last gap; then it is
reported, and no other is. -/
theorem scan_laid (file source : String) :
    ∃ placed lastGap finish,
      scanTokens file source = placed.map Placed.token ++ [finish] ∧
      (splice source.toList).text = placed.flatMap Placed.text ++ gapText lastGap ∧
      Laid file lastGap finish true (splice source.toList).positions placed ∧
      ∀ context, ∃ next reported,
        ((scanFlaws file source).forM Engine.reportFlaw) context = .ok () next ∧
        next.sink.diagnostics.toList = context.sink.diagnostics.toList ++ reported ∧
        reported.countP (fun diagnostic => diagnostic.code == some "PPS-LX-0402") =
          if lastGap.any Trivia.isUnclosed then 1 else 0 := by
  have long : (splice source.toList).positions.length =
      (cut (splice source.toList).text).text.length + 1 := by
    rw [Spliced.length_positions, cut_text]
  obtain ⟨placed, finish, tokens, text, laid⟩ :=
    @laid_placePieces _ _ file (begun_cut _) (gapsFit_cut _) true _ long
  refine ⟨placed, _, finish, tokens, ?_, laid, ?_⟩
  · rw [text]
    exact (cut_text _).symm
  · intro context
    obtain ⟨next, runs, diagnostics⟩ := forM_reportFlaw (scanFlaws file source) context
    refine ⟨next, _, runs, diagnostics, ?_⟩
    rw [List.countP_map]
    apply countP_flaws
    intro piece member flaw unfinished
    obtain ⟨_, _, begins⟩ := begins_of_mem_cut member
    exact (kind_of_unfinished begins (by rw [unfinished]; simp)).2.2 flaw unfinished

end Preproc
