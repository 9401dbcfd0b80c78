import Mathlib.Data.List.Chain
import Preproc.Proofs.Source.Respell
import Preproc.Proofs.Source.Seen

/-! # Spelling scanned tokens

Tokens that were scanned one after the other are separate: spelled again, with one space for each
gap and each newline, none of them runs on into the next. What is spelled after a token agrees with
what was written after it up to the first gap, and there a space ends every lexeme. A literal that
is left unfinished is the last token on its line, so what is spelled of a line can be read again,
flaws included.

Main statements: `separate_spelled` and `Stretch.legible`.
-/

namespace Preproc

open Source

namespace Source

variable {text after after' : List Char}

theorem splitQuoted_of_unclosed {quote : Char} {body : List Char}
    (unclosed : splitQuoted quote text = (body, false, after)) :
    splitQuoted quote body = (body, false, []) ∧ ∀ c ∈ after.head?, c = '\n' := by
  fun_induction splitQuoted quote text generalizing body after with
  | case1 =>
    cases unclosed
    exact ⟨rfl, by simp⟩
  | case2 c newline =>
    cases unclosed
    exact ⟨rfl, by simpa using newline⟩
  | case3 c notNewline =>
    obtain ⟨rfl, goesOn, rfl⟩ : [c] = body ∧ (c == quote) = false ∧ [] = after := by
      simpa using unclosed
    exact ⟨by simp [splitQuoted, notNewline, goesOn], by simp⟩
  | case4 c next rest newline =>
    cases unclosed
    exact ⟨rfl, by simpa using newline⟩
  | case5 c next rest notNewline ends => simp at unclosed
  | case6 c next rest notNewline goesOn escapes inner closed left found ih =>
    obtain ⟨rfl, rfl, rfl⟩ : c :: next :: inner = body ∧ closed = false ∧ left = after := by
      simpa using unclosed
    obtain ⟨alone, ends⟩ := ih found
    exact ⟨by simp [splitQuoted, notNewline, goesOn, escapes, alone], ends⟩
  | case7 c next rest notNewline goesOn plain inner closed left found ih =>
    obtain ⟨rfl, rfl, rfl⟩ : c :: inner = body ∧ closed = false ∧ left = after := by
      simpa using unclosed
    obtain ⟨alone, ends⟩ := ih found
    refine ⟨?_, ends⟩
    have whole := splitQuoted_text quote (next :: rest)
    rw [found] at whole
    cases inner with
    | nil => simp [splitQuoted, notNewline, goesOn]
    | cons first inner =>
      obtain ⟨rfl, _⟩ : first = next ∧ _ := by simpa using whole
      simp [splitQuoted, notNewline, goesOn, plain, alone]

variable {lexeme : Lexeme}

section

variable (begins : Begins text lexeme after)

include begins

theorem literal_of_unfinished (unfinished : lexeme.unfinishedAt ≠ none) :
    ∃ mark ∈ encodingMarks, ∃ quote inner, isQuote quote = true ∧
      (lexeme, after) = literal mark quote inner := by
  obtain ⟨_, c, rest, _, split⟩ := begins
  unfold splitLexeme at split
  split at split
  · cases split
    exact absurd rfl unfinished
  split at split
  next found fits =>
    obtain ⟨mark, marked, quote, inner, quotes, _, rfl⟩ := mark_of_literal? fits
    exact ⟨mark, marked, quote, inner, quotes, split.symm⟩
  split at split
  · cases split
    exact absurd rfl unfinished
  split at split
  · cases split
    exact absurd rfl unfinished
  split at split <;>
  · cases split
    exact absurd rfl unfinished

theorem kind_of_unfinished (unfinished : lexeme.unfinishedAt ≠ none) :
    (lexeme.kind = .string ∨ lexeme.kind = .character) ∧ (∀ c ∈ lexeme.text, c ≠ '\n') ∧
      ∀ flaw ∈ lexeme.unfinishedAt, flaw.1 ≠ .blockComment := by
  obtain ⟨mark, marked, quote, inner, quotes, found⟩ := literal_of_unfinished begins unfinished
  cases found
  refine ⟨kind_of_literal? (literal?_of_mark marked quotes), ?_, ?_⟩
  · exact ne_newline_of_mem_literal marked quotes ne_newline_of_mem_splitQuoted
  · intro flaw found
    dsimp only at found
    split at found
    · cases found
    · cases found
      dsimp only
      split <;> decide

theorem begins_of_unfinished (unfinished : lexeme.unfinishedAt ≠ none) :
    Begins lexeme.text lexeme [] ∧ ∀ c ∈ after.head?, c = '\n' := by
  obtain ⟨mark, marked, quote, inner, quotes, found⟩ := literal_of_unfinished begins unfinished
  cases found
  have alone := fun body => @begins_literal quote mark body marked quotes
  generalize split : splitQuoted quote inner = parts
  obtain ⟨body, closed, left⟩ := parts
  simp only [literal, split] at alone unfinished ⊢
  cases closed with
  | true => exact absurd rfl unfinished
  | false =>
    obtain ⟨again, ends⟩ := splitQuoted_of_unclosed split
    refine ⟨?_, ends⟩
    simpa [again] using alone body

theorem ne_newline_of_begins
    (notNewline : lexeme.kind ≠ .newline) : ∀ c ∈ lexeme.text, c ≠ '\n' := by
  cases finished : lexeme.unfinishedAt with
  | none => exact (shape_of_begins begins finished).ne_newline notNewline
  | some _ => exact (kind_of_unfinished begins (by simp [finished])).2.1

end

theorem runsOn_of_begins (begins : Begins (lexeme.text ++ after) lexeme after)
    (notNewline : lexeme.kind ≠ .newline) : runsOn lexeme.kind lexeme.text after = false := by
  cases finished : lexeme.unfinishedAt with
  | none =>
    obtain ⟨kind, text, _⟩ := lexeme
    cases finished
    exact ((shape_of_begins begins rfl).begins_iff notNewline).mp begins
  | some _ =>
    rcases (kind_of_unfinished begins (by simp [finished])).1 with string | character
    · rw [string]
      rfl
    · rw [character]
      rfl

/-- What is written in pieces and the gap after them. -/
abbrev writing (pieces : List Piece) (lastGap : List Trivia) : List Char :=
  pieces.flatMap Piece.text ++ gapText lastGap

/-- Each lexeme begins what is written from it on. -/
def Begun (lastGap : List Trivia) : List Piece → Prop
  | [] => True
  | piece :: rest =>
    Begins (piece.lexeme.text ++ writing rest lastGap) piece.lexeme (writing rest lastGap) ∧
      Begun lastGap rest

theorem begun_cut (text : List Char) : Begun (cut text).lastGap (cut text).pieces := by
  fun_induction cut text with
  | case1 text gap split => trivial
  | case2 text gap c rest split whole ih =>
    have noTrivia := trivia?_splitGap text
    rw [split] at noTrivia
    have later : writing whole.pieces whole.lastGap = (splitLexeme c rest).2 :=
      cut_text (splitLexeme c rest).2
    refine ⟨?_, ih⟩
    rw [later, splitLexeme_text]
    exact ⟨noTrivia, c, rest, rfl, rfl⟩

/-- After what is left unfinished the line ends. -/
def Closes (piece next : Piece) : Prop :=
  piece.lexeme.unfinishedAt ≠ none → next.lexeme.kind = .newline

theorem closes_cut (text : List Char) : (cut text).pieces.IsChain Closes := by
  fun_induction cut text with
  | case1 text gap split => exact .nil
  | case2 text gap c rest split whole ih =>
    have noTrivia := trivia?_splitGap text
    rw [split] at noTrivia
    have begins : Begins (c :: rest) (splitLexeme c rest).1 (splitLexeme c rest).2 :=
      ⟨noTrivia, c, rest, rfl, rfl⟩
    cases later : whole.pieces with
    | nil => exact .singleton _
    | cons next others =>
      rw [later] at ih
      refine .cons_cons (fun unfinished => ?_) ih
      have ends := (begins_of_unfinished begins unfinished).2
      obtain ⟨d, more, after⟩ : ∃ d more, (splitLexeme c rest).2 = d :: more := by
        refine List.exists_cons_of_ne_nil fun blank => ?_
        have empty : cut [] = ⟨[], []⟩ := cut_nil_of_splitGap (splitGap_of_trivia? rfl)
        simp [whole, blank, empty] at later
      obtain rfl : d = '\n' := ends d (by simp [after])
      have first := cut_of_splitGap (splitGap_of_trivia? (show trivia? ('\n' :: more) = none by
        simp [trivia?, isBlank]))
      simp only [whole, after, first, List.cons.injEq] at later
      rw [← later.1]
      rfl

end Source

variable {token : Token}

namespace Token

/-- Whether each token begins what is spelled from it on. -/
def Legible : List Token → Prop
  | [] => True
  | token :: rest =>
    (∃ flaw, Begins (token.lexeme.toList ++ following rest) ⟨token.kind, token.lexeme.toList, flaw⟩
      (following rest)) ∧ Legible rest

variable {tokens more : List Token}

theorem plain_of_ne (plain : token.kind ≠ .directive) : token.plain = token := by
  simp [Token.plain, plain]

theorem spelled_append (within : ∀ token ∈ tokens, token.endsLine = false ∧ token.kind ≠
    .directive) :
    spelled (tokens ++ more) = tokens ++ spelled more := by
  induction tokens with
  | nil => rfl
  | cons token tokens ih =>
    obtain ⟨⟨inside, plain⟩, within⟩ := List.forall_mem_cons.mp within
    have rest := ih within
    unfold spelled at rest ⊢
    rw [List.cons_append, List.filter_cons_of_pos (by simp [inside]), List.map_cons, rest,
      plain_of_ne plain]
    rfl

theorem Separate.of_append (separate : Separate (tokens ++ more)) : Separate tokens := by
  induction tokens with
  | nil => trivial
  | cons token tokens ih =>
    refine ⟨?_, ih separate.2⟩
    have ends : runsOn token.kind token.lexeme.toList (following (tokens ++ more)) = false :=
      separate.1
    rw [following, List.flatMap_append] at ends
    have apart := runsOn_apart (show Apart [] by simp [Apart]) ends
    rwa [List.append_nil] at apart

end Token

/-- Tokens on a line of a scan, up to its end. -/
def Stretch (tokens : List Token) : Prop :=
  (∀ token ∈ tokens, token.endsLine = false ∧ token.kind ≠ .directive) ∧
    ∃ file source front ending rest, ending.endsLine = true ∧
      scanTokens file source = front ++ (tokens ++ ending :: rest)

variable {tokens : List Token}

theorem Stretch.suffix {left : List Token} (stretch : Stretch tokens)
    (suffix : left <:+ tokens) : Stretch left := by
  obtain ⟨within, file, source, front, ending, later, ends, whole⟩ := stretch
  obtain ⟨before, rfl⟩ := suffix
  refine ⟨fun token member => within token (List.mem_append_right _ member), file, source,
    front ++ before, ending, later, ends, ?_⟩
  simpa using whole

section Pieces

variable {file : String} {positions : List Position} {pieces : List Piece} {lastGap : List Trivia}
  {tokens rest : List Token} {ending : Token} {lineStart : Bool}

theorem kind_tokenOf {lexeme : Lexeme} {location : Location} {spaced : Bool}
    (plain : (tokenOf lexeme location spaced lineStart).kind ≠ .directive) :
    (tokenOf lexeme location spaced lineStart).kind = lexeme.kind := by
  unfold tokenOf at plain ⊢
  dsimp only at plain ⊢
  split at plain
  · exact absurd rfl plain
  next inside => rw [if_neg inside]

/-- **What is spelled of a scan is separate.** What is spelled agrees with what was written up to
the first gap or newline, where it ends or goes on with a space. -/
theorem separate_spelled (begun : Begun lastGap pieces) :
    let tokens := Token.spelled ((placePieces file lineStart positions pieces lastGap).map
      (·.token))
    Token.Separate tokens ∧ (lineStart = true → Apart (Token.following tokens)) ∧
      ∃ front after after', Apart after ∧ Token.following tokens = front ++ after ∧
        writing pieces lastGap = front ++ after' := by
  induction pieces generalizing lineStart positions with
  | nil =>
    have apart : Apart [] := by simp [Apart]
    exact ⟨trivial, fun _ => apart, [], [], _, apart, rfl, rfl⟩
  | cons piece pieces ih =>
    obtain ⟨begins, begun⟩ := begun
    have kinds : piece.lexeme.kind ≠ .eof ∧ piece.lexeme.kind ≠ .directive := by
      obtain ⟨_, c, rest, _, split⟩ := begins
      have kinds := kind_splitLexeme c rest
      rwa [split] at kinds
    rw [placePieces, List.map_cons]
    dsimp only
    rw [spelled_tokenOf kinds]
    obtain ⟨separate, starts, front, after, after', apart, spells, writes⟩ := @ih
      ((positions.drop (gapText piece.gap).length).drop piece.lexeme.text.length)
      (piece.lexeme.kind == .newline) begun
    by_cases newline : piece.lexeme.kind = .newline
    · rw [if_pos newline]
      have apart := starts (by simp [newline])
      exact ⟨separate, fun _ => apart, [], _, _, apart, rfl, rfl⟩
    rw [if_neg newline]
    generalize Token.spelled ((placePieces file (piece.lexeme.kind == .newline) _ pieces
      lastGap).map (·.token)) = tokens at *
    generalize placeAt file (positions.drop (gapText piece.gap).length) = location
    have following : Token.following
        (tokenOf piece.lexeme location (!piece.gap.isEmpty || lineStart) false :: tokens) =
        (if piece.gap.isEmpty && !lineStart then [] else [' ']) ++
          (piece.lexeme.text ++ Token.following tokens) := by
      cases empty : piece.gap.isEmpty <;> cases lineStart <;>
        simp [Token.following, Token.space, tokenOf]
    rw [following]
    refine ⟨⟨?_, separate⟩, ?_, ?_⟩
    · have goesOn := runsOn_of_begins begins newline
      rw [writes] at goesOn
      simpa [tokenOf, spells] using runsOn_apart apart goesOn
    · rintro rfl
      simp [Apart]
    · by_cases joined : (piece.gap.isEmpty && !lineStart) = true
      · rw [if_pos joined]
        refine ⟨piece.lexeme.text ++ front, after, after', apart, by simp [spells], ?_⟩
        have empty : piece.gap = [] := by simpa using (Bool.and_eq_true_iff.mp joined).1
        unfold writing at writes ⊢
        rw [List.flatMap_cons, List.append_assoc, writes]
        simp [Piece.text, empty, gapText]
      · rw [if_neg joined]
        exact ⟨[], _, _, by simp [Apart], rfl, rfl⟩

theorem exists_piece (inside : token.endsLine = false) (plain : token.kind ≠ .directive)
    (placed : (placePieces file lineStart positions pieces lastGap).map (·.token) =
      token :: rest) :
    ∃ piece later, pieces = piece :: later ∧ token.kind = piece.lexeme.kind ∧
      token.lexeme.toList = piece.lexeme.text ∧ piece.lexeme.kind ≠ .newline ∧
      ∃ positions, (placePieces file false positions later lastGap).map (·.token) = rest := by
  cases pieces with
  | nil =>
    obtain rfl : Token.endOfInput _ = token := (List.cons.inj placed).1
    cases inside
  | cons piece later =>
    obtain ⟨rfl, behind⟩ := List.cons.inj placed
    have kind := kind_tokenOf plain
    have notNewline : piece.lexeme.kind ≠ .newline := by
      intro newline
      simp [Token.endsLine, kind, newline] at inside
    rw [beq_false_of_ne notNewline] at behind
    exact ⟨piece, later, rfl, kind, String.toList_ofList, notNewline, _, behind⟩

theorem legible_of_placed (begun : Begun lastGap pieces) (closes : pieces.IsChain Closes)
    (separate : Token.Separate tokens)
    (inside : ∀ token ∈ tokens, token.endsLine = false ∧ token.kind ≠ .directive)
    (placed : (placePieces file lineStart positions pieces lastGap).map (·.token) =
      tokens ++ ending :: rest) : Token.Legible tokens := by
  induction tokens generalizing pieces positions lineStart with
  | nil => trivial
  | cons token tokens ih =>
    obtain ⟨⟨here, plain⟩, others⟩ := List.forall_mem_cons.mp inside
    obtain ⟨piece, later, rfl, kind, text, notNewline, _, behind⟩ := exists_piece here plain placed
    refine ⟨?_, ih begun.2 closes.of_cons separate.2 others behind⟩
    rw [kind, text]
    have ends := separate.1
    rw [kind, text] at ends
    cases finished : piece.lexeme.unfinishedAt with
    | none =>
      have shape := shape_of_begins begun.1 finished
      exact ⟨none, (shape.begins_iff notNewline).mpr ends⟩
    | some flaw =>
      have unfinished : piece.lexeme.unfinishedAt ≠ none := by simp [finished]
      -- The next token would be on the next line.
      obtain rfl : tokens = [] := by
        cases tokens with
        | nil => rfl
        | cons next tokens =>
          obtain ⟨here, plain⟩ := others next List.mem_cons_self
          obtain ⟨second, _, rfl, _, _, goesOn, _⟩ := exists_piece here plain behind
          exact absurd ((List.isChain_cons_cons.mp closes).1 unfinished) goesOn
      refine ⟨some flaw, ?_⟩
      have alone := (begins_of_unfinished begun.1 unfinished).1
      rw [← finished]
      simpa [Token.following] using alone

theorem exists_suffix {front : List Token} (begun : Begun lastGap pieces)
    (placed : (placePieces file lineStart positions pieces lastGap).map (·.token) = front ++ rest)
    (nonempty : rest ≠ []) :
    ∃ lineStart positions later, later <:+ pieces ∧ Begun lastGap later ∧
      (placePieces file lineStart positions later lastGap).map (·.token) = rest := by
  induction front generalizing pieces positions lineStart with
  | nil => exact ⟨lineStart, positions, pieces, List.suffix_rfl, begun, placed⟩
  | cons token front ih =>
    cases pieces with
    | nil =>
      exact absurd (List.append_eq_nil_iff.mp (List.cons.inj placed).2.symm).2 nonempty
    | cons piece pieces =>
      obtain ⟨start, places, later, suffix, begun, placed⟩ := ih begun.2 (List.cons.inj placed).2
      exact ⟨start, places, later, suffix.trans (List.suffix_cons ..), begun, placed⟩

end Pieces

/-- **A stretch of a line** is separate, wherever it was scanned, and can be read where it is
spelled. -/
theorem Stretch.legible (stretch : Stretch tokens) :
    Token.Separate tokens ∧ Token.Legible tokens := by
  obtain ⟨within, file, source, front, ending, rest, _, whole⟩ := stretch
  obtain ⟨lineStart, positions, later, suffix, begun, placed⟩ :=
    exists_suffix (begun_cut _) whole (by simp)
  have separate := (@separate_spelled file positions _ _ lineStart begun).1
  rw [placed, Token.spelled_append within] at separate
  have separate := separate.of_append
  exact ⟨separate, legible_of_placed begun ((closes_cut _).suffix suffix) separate within placed⟩

theorem unbroken_of_mem_scanTokens {file source : String}
    (member : token ∈ scanTokens file source) (inside : token.endsLine = false) :
    token.Unbroken := by
  obtain ⟨scanned, among, rfl⟩ := List.mem_map.mp member
  rcases mem_placePieces among with ⟨piece, among, location, spaced, start, same, _⟩ |
    ⟨location, same, _⟩
  · obtain ⟨_, _, begins⟩ := begins_of_mem_cut among
    rw [same, endsLine_tokenOf (kind_of_mem_cut among).1] at inside
    rw [same]
    intro c member
    have member : c ∈ piece.lexeme.text := by simpa [tokenOf] using member
    exact ⟨ne_newline_of_begins begins (by simpa using inside) c member,
      ne_return_of_mem_splice c (mem_of_mem_piece among member)⟩
  · rw [same] at inside
    cases inside

theorem Stretch.identifier (stretch : Stretch tokens) (member : token ∈ tokens)
    (named : token.isIdentifier = true) : Shape .identifier token.lexeme.toList := by
  obtain ⟨_, file, source, front, ending, rest, _, whole⟩ := stretch
  have among : token ∈ scanTokens file source := by simp [whole, member]
  have kind : token.kind = .identifier := by simpa [Token.isIdentifier] using named
  obtain ⟨scanned, found, rfl⟩ := List.mem_map.mp among
  rcases mem_placePieces found with ⟨piece, among, location, spaced, start, same, _⟩ |
    ⟨location, same, _⟩
  · obtain ⟨_, _, begins⟩ := begins_of_mem_cut among
    rw [same] at kind ⊢
    rw [kind_tokenOf (by simp [kind])] at kind
    have finished : piece.lexeme.unfinishedAt = none := by
      refine Decidable.byContradiction fun unfinished => ?_
      rcases (kind_of_unfinished begins unfinished).1 with other | other <;> simp [other] at kind
    have shape := shape_of_begins begins finished
    rw [kind] at shape
    simpa [tokenOf] using shape
  · rw [same] at kind
    cases kind

theorem Stretch.unbroken (stretch : Stretch tokens) : ∀ token ∈ tokens, token.Unbroken := by
  obtain ⟨within, file, source, front, ending, rest, _, whole⟩ := stretch
  intro token member
  have among : token ∈ scanTokens file source := by simp [whole, member]
  exact unbroken_of_mem_scanTokens among (within token member).1

section Near

variable {placed : Bool} {tokens' : List Token}

theorem Token.following_seen (tokens : List Token) :
    Token.following (tokens.map (Token.seen placed)) = Token.following tokens := by
  simp only [Token.following, List.flatMap_map]
  rfl

theorem Token.Separate.near (separate : Token.Separate tokens)
    (near : NearTokens placed tokens tokens') : Token.Separate tokens' := by
  have blind : ∀ tokens, Token.Separate (tokens.map (Token.seen placed)) =
    Token.Separate tokens := by
    intro tokens
    induction tokens with
    | nil => rfl
    | cons token tokens ih =>
      rw [List.map_cons, Token.Separate, Token.Separate, ih, Token.following_seen]
      rfl
  rwa [near.congr blind]

theorem Token.Legible.near (legible : Token.Legible tokens)
    (near : NearTokens placed tokens tokens') : Token.Legible tokens' := by
  have blind : ∀ tokens, Token.Legible (tokens.map (Token.seen placed)) = Token.Legible tokens := by
    intro tokens
    induction tokens with
    | nil => rfl
    | cons token tokens ih =>
      rw [List.map_cons, Token.Legible, Token.Legible, ih, Token.following_seen]
      rfl
  rwa [near.congr blind]

end Near

end Preproc
