import Preproc.Proofs.Source.RunOn
import Preproc.Proofs.Source.Scanned
import Preproc.Token.Spelling

/-! # Scanning the spelling of tokens

Tokens that were spelled can be scanned again. The scan gives the same lexemes exactly when no
token runs on into what is spelled after it. The hard direction is that a scan that gives the same
lexemes cannot have found them elsewhere: if one lexeme lagged behind its place in the spelling,
all later ones would lag behind too, since no lexeme ends with a space, and the last one would not
fit in.
-/

namespace Preproc

open Source

namespace Token

/-- The lexeme that a token was or could have been scanned from. -/
def toLexeme (token : Token) : Lexeme :=
  ⟨token.kind, token.lexeme.toList, none⟩

/-- What is spelled between a token and the one before it. -/
def space (token : Token) : List Char :=
  if token.leadingSpace then [' '] else []

/-- The piece that a token is cut out as where it is spelled. -/
def piece (token : Token) : Piece :=
  ⟨token.space.map .blank, token.toLexeme⟩

/-- The spelling of tokens that come after others. -/
def following (tokens : List Token) : List Char :=
  tokens.flatMap fun token => token.space ++ token.lexeme.toList

/-- The token where no directive is opened. -/
def plain (token : Token) : Token :=
  { token with kind := if token.kind == .directive then .punctuator else token.kind }

/-- The tokens that are spelled. A `#` is spelled like any other, whether it opens a directive or
not. -/
def spelled (tokens : List Token) : List Token :=
  (tokens.filter fun token => !token.endsLine).map plain

/-- Whether no token runs on into what is spelled after it. -/
def Separate : List Token → Prop
  | [] => True
  | token :: rest =>
    runsOn token.kind token.lexeme.toList (following rest) = false ∧ Separate rest

instance : (tokens : List Token) → Decidable (Separate tokens)
  | [] => inferInstanceAs (Decidable True)
  | _ :: rest =>
    have := instDecidableSeparate rest
    inferInstanceAs (Decidable (_ ∧ _))

/-- Whether there is no line break in the text of a token. -/
def Unbroken (token : Token) : Prop :=
  ∀ c ∈ token.lexeme.toList, c ≠ '\n' ∧ c ≠ '\r'

instance (token : Token) : Decidable token.Unbroken :=
  decidable_of_iff ((token.lexeme.toList.all fun c => c != '\n' && c != '\r') = true)
    (by simp [Unbroken])

/-- Whether a token is one that a scan could give, and no newline. -/
def Shaped (token : Token) : Prop :=
  Shape token.kind token.lexeme.toList ∧ token.kind ≠ .newline

end Token

variable {text : List Char} {tokens : List Token} {c : Char} {pieces : List Piece}

namespace Source

theorem splitGap_of_trivia? (missing : trivia? text = none) : splitGap text = ([], text) := by
  unfold splitGap
  split
  · rfl
  next trivia rest found =>
    rw [missing] at found
    cases found

theorem splitGap_of_trivia?_some {rest : List Char} {trivia : Trivia}
    (found : trivia? text = some (trivia, rest)) :
    splitGap text = (trivia :: (splitGap rest).1, (splitGap rest).2) := by
  rw [splitGap]
  split
  next missing =>
    rw [found] at missing
    cases missing
  next other after same =>
    obtain ⟨rfl, rfl⟩ : trivia = other ∧ rest = after := by simpa [found] using same
    rfl

theorem unclosedAt?_cons {trivia : Trivia} (closed : unclosedAt? [trivia] = none)
    (gap : List Trivia) :
    unclosedAt? (trivia :: gap) = (unclosedAt? gap).map (trivia.text.length + ·) := by
  cases trivia with
  | blockComment body ended => cases ended <;> simp_all [unclosedAt?]
  | _ => simp [unclosedAt?]

theorem splitGap_space (text : List Char) :
    splitGap (' ' :: text) = (.blank ' ' :: (splitGap text).1, (splitGap text).2) :=
  splitGap_of_trivia?_some (by simp [trivia?, isBlank])

theorem cut_of_splitGap {rest : List Char} {gap : List Trivia}
    (split : splitGap text = (gap, c :: rest)) :
    cut text = ⟨⟨gap, (splitLexeme c rest).1⟩ :: (cut (splitLexeme c rest).2).pieces,
      (cut (splitLexeme c rest).2).lastGap⟩ := by
  rw [cut]
  split
  next gap' missing =>
    rw [split] at missing
    cases missing
  next gap' c' rest' found =>
    obtain ⟨rfl, rfl, rfl⟩ : gap = gap' ∧ c = c' ∧ rest = rest' := by simpa [split] using found
    rfl

theorem cut_nil_of_splitGap {gap : List Trivia}
    (split : splitGap text = (gap, [])) : cut text = ⟨[], gap⟩ := by
  rw [cut]
  split
  next gap' found =>
    obtain rfl : gap = gap' := by simpa [split] using found
    rfl
  next gap' c rest found =>
    rw [split] at found
    cases found

theorem cut_following (shaped : ∀ token ∈ tokens, token.Shaped)
    (separate : Token.Separate tokens) {trail : List Char} (spaces : trail = [] ∨ trail = [' ']) :
    cut (Token.following tokens ++ trail) = ⟨tokens.map Token.piece, trail.map .blank⟩ := by
  induction tokens with
  | nil =>
    have empty : splitGap [] = ([], []) := splitGap_of_trivia? rfl
    apply cut_nil_of_splitGap
    rcases spaces with rfl | rfl
    · exact empty
    · exact (splitGap_space []).trans (by rw [empty]; rfl)
  | cons token rest ih =>
    obtain ⟨⟨shape, notNewline⟩, restShaped⟩ := List.forall_mem_cons.mp shaped
    obtain ⟨ends, restSeparate⟩ := separate
    have ends : runsOn token.kind token.lexeme.toList (Token.following rest ++ trail) = false := by
      have alone : runsOn token.kind token.lexeme.toList (Token.following rest ++ []) = false := by
        rwa [List.append_nil]
      exact runsOn_apart (by rcases spaces with rfl | rfl <;> simp [Apart]) alone
    obtain ⟨noTrivia, c, after, whole, split⟩ := (shape.begins_iff notNewline).mpr ends
    have gap : splitGap (Token.following (token :: rest) ++ trail) =
        (token.space.map .blank, c :: after) := by
      have spelled : Token.following (token :: rest) ++ trail =
          token.space ++ (c :: after) := by
        rw [← whole]
        simp [Token.following]
      rw [spelled]
      rw [whole] at noTrivia
      unfold Token.space
      split
      · simp [splitGap_space, splitGap_of_trivia? noTrivia]
      · simp [splitGap_of_trivia? noTrivia]
    rw [cut_of_splitGap gap, split, ih restShaped restSeparate]
    rfl

section Alignment

theorem space_eq (token : Token) : token.space = [] ∨ token.space = [' '] := by
  unfold Token.space
  split
  · exact .inr rfl
  · exact .inl rfl

theorem not_lagging {token : Token} {last front behind : List Char}
    (same : pieces.map (·.lexeme) = tokens.map Token.toLexeme)
    (shaped : ∀ other ∈ token :: tokens, other.Shaped)
    (whole : front ++ (token.lexeme.toList ++ Token.following tokens) =
      behind ++ (token.lexeme.toList ++ (pieces.flatMap Piece.text ++ last))) :
    ¬ front.length < behind.length := by
  intro lags
  induction tokens generalizing token pieces front behind with
  | nil =>
    have lengths := congrArg List.length whole
    simp [Token.following] at lengths
    omega
  | cons next tokens ih =>
    cases pieces with
    | nil => cases same
    | cons piece pieces =>
      obtain ⟨here, later⟩ := List.cons.inj same
      obtain ⟨⟨shape, notNewline⟩, restShaped⟩ := List.forall_mem_cons.mp shaped
      have text : piece.lexeme.text = next.lexeme.toList := congrArg (·.text) here
      have aligned : front ++ token.lexeme.toList ++ next.space ++
          (next.lexeme.toList ++ Token.following tokens) =
          behind ++ token.lexeme.toList ++ gapText piece.gap ++
            (next.lexeme.toList ++ (pieces.flatMap Piece.text ++ last)) := by
        simpa [Token.following, Piece.text, text] using whole
      by_cases still : (front ++ token.lexeme.toList ++ next.space).length <
          (behind ++ token.lexeme.toList ++ gapText piece.gap).length
      · exact ih later restShaped aligned still
      -- Catching up takes a space in the spelling that the scan has inside the lexeme.
      simp only [List.length_append] at still
      have spaced : next.space = [' '] := by
        refine (space_eq next).resolve_left fun empty => ?_
        rw [empty, List.length_nil] at still
        omega
      have gap : gapText piece.gap = [] := by
        rw [spaced, List.length_singleton] at still
        exact List.length_eq_zero_iff.mp (by omega)
      rw [spaced, gap, List.length_singleton, List.length_nil] at still
      rw [spaced, gap, List.append_nil] at aligned
      have fronts := (List.append_inj aligned (by simp; omega)).1
      have ends := congrArg List.getLast? fronts
      cases final : token.lexeme.toList.getLast? with
      | none => exact shape.ne_nil (List.getLast?_eq_none_iff.mp final)
      | some c =>
        have isSpace : c = ' ' := by simpa [final, eq_comm] using ends
        exact shape.getLast_ne_space notNewline c final isSpace

theorem gapText_eq_space {token : Token} {piece : Piece} {last : List Char}
    (here : piece.lexeme = token.toLexeme)
    (later : pieces.map (·.lexeme) = tokens.map Token.toLexeme)
    (shaped : ∀ other ∈ token :: tokens, other.Shaped) (whole : Token.following (token :: tokens) =
      (piece :: pieces).flatMap Piece.text ++ last) : gapText piece.gap = token.space := by
  obtain ⟨⟨shape, notNewline⟩, _⟩ := List.forall_mem_cons.mp shaped
  have text : piece.lexeme.text = token.lexeme.toList := congrArg (·.text) here
  have aligned : token.space ++ (token.lexeme.toList ++ Token.following tokens) =
      gapText piece.gap ++ (token.lexeme.toList ++ (pieces.flatMap Piece.text ++ last)) := by
    simpa [Token.following, Piece.text, text] using whole
  have notLate := not_lagging later shaped aligned
  by_cases early : (gapText piece.gap).length < token.space.length
  · have spaced : token.space = [' '] := by
      refine (space_eq token).resolve_left fun empty => ?_
      rw [empty] at early
      exact absurd early (Nat.not_lt_zero _)
    have gap : gapText piece.gap = [] := by
      rw [spaced, List.length_singleton] at early
      exact List.length_eq_zero_iff.mp (by omega)
    rw [gap, spaced] at aligned
    cases first : token.lexeme.toList with
    | nil => exact absurd first shape.ne_nil
    | cons c rest =>
      rw [first] at aligned
      obtain ⟨isSpace, _⟩ : ' ' = c ∧ _ := by simpa using aligned
      exact absurd isSpace.symm (shape.head_ne_space notNewline c (by simp [first]))
  · exact (List.append_inj aligned (by omega)).1.symm

theorem separate_of_cut (tokens : List Token) (shaped : ∀ token ∈ tokens, token.Shaped)
    (same : (cut (Token.following tokens)).pieces.map (·.lexeme) = tokens.map Token.toLexeme) :
    Token.Separate tokens := by
  induction tokens with
  | nil => trivial
  | cons token tokens ih =>
    have kept := splitGap_text (Token.following (token :: tokens))
    have noTrivia := trivia?_splitGap (Token.following (token :: tokens))
    have whole := cut_text (Token.following (token :: tokens))
    obtain ⟨gap, rest, split⟩ : ∃ gap rest,
        splitGap (Token.following (token :: tokens)) = (gap, rest) := ⟨_, _, rfl⟩
    rw [split] at kept noTrivia
    cases rest with
    | nil =>
      rw [cut_nil_of_splitGap split] at same
      cases same
    | cons c rest =>
      rw [cut_of_splitGap split] at same whole
      obtain ⟨here, later⟩ := List.cons.inj same
      have gaps := gapText_eq_space here later shaped whole.symm
      obtain ⟨⟨shape, notNewline⟩, restShaped⟩ := List.forall_mem_cons.mp shaped
      have front : c :: rest = token.lexeme.toList ++ Token.following tokens := by
        have spelled : Token.following (token :: tokens) =
            token.space ++ (token.lexeme.toList ++ Token.following tokens) := by
          simp [Token.following]
        rw [gaps, spelled] at kept
        exact List.append_cancel_left kept
      have found : (splitLexeme c rest).1 = token.toLexeme := here
      have left : (splitLexeme c rest).2 = Token.following tokens := by
        have parts := splitLexeme_text c rest
        rw [found, front] at parts
        exact List.append_cancel_left parts
      rw [left] at later
      refine ⟨(shape.begins_iff notNewline).mp ?_, ih restShaped later⟩
      rw [front] at noTrivia
      exact ⟨noTrivia, c, rest, front.symm, Prod.ext found left⟩

end Alignment

section Lines

theorem normalizeNewlines_of_plain (plain : ∀ c ∈ text, c ≠ '\r') :
    normalizeNewlines text = text := by
  fun_induction normalizeNewlines text with
  | case1 => rfl
  | case2 rest ih => exact absurd rfl (plain '\r' (List.mem_cons_self ..))
  | case3 c rest notPair ih =>
    obtain ⟨here, later⟩ := List.forall_mem_cons.mp plain
    simp [here, ih later]

theorem ne_return_of_mem_normalizeNewlines : ∀ c ∈ normalizeNewlines text, c ≠ '\r' := by
  fun_induction normalizeNewlines text with
  | case1 => simp
  | case2 rest ih => exact List.forall_mem_cons.mpr ⟨by decide, ih⟩
  | case3 c rest notPair ih =>
    refine List.forall_mem_cons.mpr ⟨?_, ih⟩
    split
    · decide
    next notReturn => simpa using notReturn

/-- The positions of the characters of a text and of its end. -/
def positionsFrom : Position → List Char → List Position
  | position, [] => [position]
  | position, c :: rest => position :: positionsFrom (position.after c) rest

/-- Whether no line of a text is spliced to the next. -/
def Unspliced (text : List Char) : Prop :=
  ¬ ['\\', '\n'] <:+: text

instance (text : List Char) : Decidable (Unspliced text) :=
  inferInstanceAs (Decidable (¬ _))

theorem spliceFrom_of_unspliced (unspliced : Unspliced text) (position : Position) :
    (spliceFrom position text).text = text ∧
      (spliceFrom position text).positions = positionsFrom position text := by
  fun_induction spliceFrom position text with
  | case1 => exact ⟨rfl, rfl⟩
  | case2 position rest ih => exact absurd ⟨[], rest, rfl⟩ unspliced
  | case3 position c rest notPair spliced ih =>
    obtain ⟨text, positions⟩ := ih fun inside =>
      unspliced (inside.trans (List.infix_cons List.infix_rfl))
    refine ⟨congrArg (c :: ·) text, ?_⟩
    simp only [Spliced.positions, List.map_cons, List.cons_append, positionsFrom] at positions ⊢
    rw [← positions]

theorem unspliced_of_plain (noNewtext : '\n' ∉ text) : Unspliced text := by
  intro ⟨front, back, whole⟩
  apply noNewtext
  rw [← whole]
  simp

theorem mem_of_mem_spliceFrom (position : Position)
    (member : c ∈ (spliceFrom position text).text) : c ∈ text := by
  fun_induction spliceFrom position text with
  | case1 => exact member
  | case2 position rest ih => exact List.mem_cons_of_mem _ (List.mem_cons_of_mem _ (ih member))
  | case3 position d rest notPair spliced ih =>
    rcases List.mem_cons.mp member with rfl | later
    · exact List.mem_cons_self ..
    · exact List.mem_cons_of_mem _ (ih later)

theorem text_splice_of_plain (plain : ∀ c ∈ text, c ≠ '\n' ∧ c ≠ '\r') :
    (splice text).text = text := by
  unfold splice
  rw [normalizeNewlines_of_plain fun c member => (plain c member).2]
  refine (spliceFrom_of_unspliced (unspliced_of_plain fun newline => ?_) _).1
  exact (plain _ newline).1 rfl

theorem ne_return_of_mem_splice : ∀ c ∈ (splice text).text, c ≠ '\r' :=
  fun c member => ne_return_of_mem_normalizeNewlines c (mem_of_mem_spliceFrom _ member)

end Lines

end Source

/-- What counts of a token when scans are compared: its kind and its text. -/
def Token.mold (token : Token) : TokenKind × String :=
  (token.kind, token.lexeme)

/-- What counts of the lexeme of a piece. -/
def Source.Piece.mold (piece : Piece) : TokenKind × String :=
  (piece.lexeme.kind, String.ofList piece.lexeme.text)

def Source.Piece.token (place : Location) (piece : Piece) : Token :=
  tokenOf piece.lexeme place (!piece.gap.isEmpty) false

section Rescan

/-- Only the last comment of a text can be unclosed. -/
theorem splitGap_of_unclosed (unclosed : unclosedAt? (splitGap text).1 ≠ none) :
    (splitGap text).2 = [] := by
  fun_induction splitGap text with
  | case1 => exact absurd rfl unclosed
  | case2 text trivia rest found gap after split ih =>
    rw [split] at ih
    by_cases closed : unclosedAt? [trivia] = none
    · rw [unclosedAt?_cons closed] at unclosed
      exact ih (by simpa using unclosed)
    · have ended : rest = [] := by
        unfold trivia? at found
        repeat' split at found
        all_goals cases found
        all_goals first | rfl | exact absurd rfl closed
      rw [ended, splitGap_of_trivia? rfl] at split
      cases split
      rfl

theorem skipStrict_eq (file : String) (positions : List Position) (text : List Char) :
    skipStrict file positions text = (unclosedAt? (splitGap text).1).elim
      (.ok (!(splitGap text).1.isEmpty, positions.drop (gapText (splitGap text).1).length,
        (splitGap text).2))
      fun offset => .error ⟨.blockComment, placeAt file (positions.drop offset)⟩ := by
  fun_induction skipStrict file positions text with
  | case1 positions text found => simp [splitGap_of_trivia? found, unclosedAt?, gapText]
  | case2 positions text body rest found => simp [splitGap_of_trivia?_some found, unclosedAt?]
  | case3 positions text trivia rest closed found ih =>
    have closed : unclosedAt? [trivia] = none := by
      cases trivia with
      | blockComment body ended =>
        cases ended with
        | false => exact absurd rfl (closed body)
        | true => rfl
      | _ => rfl
    rw [splitGap_of_trivia?_some found, ih]
    dsimp only
    rw [unclosedAt?_cons closed]
    cases unclosedAt? (splitGap rest).1 with
    | none => simp [Except.map, gapText]
    | some offset => simp [Except.map]

theorem splitGap_of_skipStrict {file : String} {positions here : List Position} {rest : List Char}
    {spaced : Bool} (skips : skipStrict file positions text = .ok (spaced, here, rest)) :
    ∃ gap, splitGap text = (gap, rest) ∧ unclosedAt? gap = none ∧ spaced = !gap.isEmpty ∧
      here = positions.drop (gapText gap).length := by
  rw [skipStrict_eq] at skips
  cases unclosed : unclosedAt? (splitGap text).1 with
  | none =>
    rw [unclosed] at skips
    cases skips
    exact ⟨_, rfl, unclosed, rfl, rfl⟩
  | some offset =>
    rw [unclosed] at skips
    cases skips

/-- The outcome of a strict scan, as the items of the other scan tell it. -/
def outcome (items : List Scanned) : Except Flaw (List Token) :=
  (items.filterMap (·.flaw)).head?.elim (.ok (items.map (·.token))) .error

theorem outcome_cons (token : Token) (items : List Scanned) :
    outcome (⟨token, none⟩ :: items) = (outcome items).map (token :: ·) := by
  unfold outcome
  rw [List.filterMap_cons]
  cases (items.filterMap (·.flaw)).head? <;> rfl

/-- The two scans go through a text side by side, up to the first flaw. -/
theorem scanStrictFrom_eq (file : String) (lineStart : Bool) (positions : List Position)
    (text : List Char) : scanStrictFrom file lineStart positions text =
      outcome (placePieces file lineStart positions (cut text).pieces (cut text).lastGap) := by
  fun_induction scanStrictFrom file lineStart positions text with
  | case1 lineStart positions text flaw skips =>
    rw [skipStrict_eq] at skips
    cases unclosed : unclosedAt? (splitGap text).1 with
    | none =>
      rw [unclosed] at skips
      cases skips
    | some offset =>
      rw [unclosed] at skips
      cases skips
      have ended : (splitGap text).2 = [] := splitGap_of_unclosed (by simp [unclosed])
      rw [cut_nil_of_splitGap (Prod.ext rfl ended)]
      simp [placePieces, unclosed, outcome]
  | case2 lineStart positions text spaced here skips =>
    obtain ⟨gap, split, closed, _, rfl⟩ := splitGap_of_skipStrict skips
    rw [cut_nil_of_splitGap split]
    simp [placePieces, closed, outcome]
  | case3 lineStart positions text spaced here c rest skips lexeme what offset unfinished =>
    obtain ⟨gap, split, _, _, rfl⟩ := splitGap_of_skipStrict skips
    have unfinished : (splitLexeme c rest).1.unfinishedAt = some (what, offset) := unfinished
    rw [cut_of_splitGap split]
    simp [placePieces, unfinished, outcome]
  | case4 lineStart positions text spaced here c rest skips lexeme finished ih =>
    obtain ⟨gap, split, _, rfl, rfl⟩ := splitGap_of_skipStrict skips
    have finished : (splitLexeme c rest).1.unfinishedAt = none := finished
    rw [cut_of_splitGap split, ih, placePieces]
    dsimp only
    rw [finished]
    exact (outcome_cons _ _).symm

theorem scanStrict_eq (file source : String) : scanStrict file source =
    (scanFlaws file source).head?.elim (.ok (scanTokens file source)) .error :=
  scanStrictFrom_eq file true _ _

theorem rescanStrict_eq (text : String) (place : Location) : rescanStrict text place =
    (scanFlaws place.file text).head?.elim (.ok (rescan text place)) .error := by
  rw [rescanStrict, scanStrict_eq]
  cases (scanFlaws place.file text).head? <;> rfl

theorem mem_of_mem_piece {piece : Piece} (member : piece ∈ (cut text).pieces)
    (inside : c ∈ piece.lexeme.text) : c ∈ text := by
  rw [← cut_text text]
  refine List.mem_append_left _ (List.mem_flatMap.mpr ⟨piece, member, ?_⟩)
  exact List.mem_append_right _ inside

theorem kind_of_mem_cut {piece : Piece} (member : piece ∈ (cut text).pieces) :
    piece.lexeme.kind ≠ .eof ∧ piece.lexeme.kind ≠ .directive := by
  obtain ⟨_, _, _, c, rest, _, split⟩ := begins_of_mem_cut member
  have kinds := kind_splitLexeme c rest
  rwa [split] at kinds

theorem endsLine_tokenOf {lexeme : Lexeme} (goesOn : lexeme.kind ≠ .eof) (location : Location)
    (spaced lineStart : Bool) :
    (tokenOf lexeme location spaced lineStart).endsLine = (lexeme.kind == .newline) := by
  unfold tokenOf Token.endsLine
  dsimp only
  split
  next opens =>
    have kind : lexeme.kind = .punctuator := by simp_all
    rw [kind]
    rfl
  next inside => simp [goesOn]

theorem spelled_tokenOf {lexeme : Lexeme}
    (kinds : lexeme.kind ≠ .eof ∧ lexeme.kind ≠ .directive) (location : Location)
    (spaced lineStart : Bool) (tokens : List Token) :
    Token.spelled (tokenOf lexeme location spaced lineStart :: tokens) =
      if lexeme.kind = .newline then Token.spelled tokens
      else tokenOf lexeme location (spaced || lineStart) false :: Token.spelled tokens := by
  have ends := endsLine_tokenOf kinds.1 location spaced lineStart
  unfold Token.spelled
  by_cases newline : lexeme.kind = .newline
  · simp [ends, newline]
  · have here : (tokenOf lexeme location spaced lineStart).plain =
        tokenOf lexeme location (spaced || lineStart) false := by
      unfold tokenOf Token.plain
      dsimp only
      rw [bne_iff_ne.mpr newline]
      split
      next opens => simp_all
      next inside => simp_all
    simp [ends, newline, here]

theorem placeTogether_eq (place : Location) (tokens : List Token) : placeTogether place tokens =
    ((Token.spelled tokens).map (·.relocated place)).modifyHead (·.withLeadingSpace false) := by
  unfold placeTogether Token.spelled
  split
  next empty => rw [empty]; rfl
  next first rest whole => rw [whole, List.map_cons, List.map_cons, List.map_map]; rfl

section Pieces

variable {file : String} {lineStart : Bool} {positions : List Position} {pieces : List Piece}
  {lastGap : List Trivia}

theorem flawless_placePieces_iff :
    (∀ scanned ∈ placePieces file lineStart positions pieces lastGap, scanned.flaw = none) ↔
      (∀ piece ∈ pieces, piece.lexeme.unfinishedAt = none) ∧ unclosedAt? lastGap = none := by
  induction pieces generalizing lineStart positions with
  | nil => simp [placePieces]
  | cons piece pieces ih =>
    rw [placePieces, List.forall_mem_cons, List.forall_mem_cons, ih, and_assoc]
    simp

theorem molds_placePieces
    (kinds : ∀ piece ∈ pieces, piece.lexeme.kind ≠ .eof ∧ piece.lexeme.kind ≠ .directive) :
    (Token.spelled ((placePieces file lineStart positions pieces lastGap).map (·.token))).map
        Token.mold =
      (pieces.filter fun piece => piece.lexeme.kind != .newline).map Piece.mold := by
  induction pieces generalizing lineStart positions with
  | nil => rfl
  | cons piece pieces ih =>
    obtain ⟨here, later⟩ := List.forall_mem_cons.mp kinds
    rw [placePieces, List.map_cons, spelled_tokenOf here, List.filter_cons]
    by_cases newline : piece.lexeme.kind = .newline
    · simp [newline, ih later]
    · simp [newline, ih later, Token.mold, Piece.mold, tokenOf]

theorem spelled_placePieces (place : Location)
    (kinds : ∀ piece ∈ pieces, piece.lexeme.kind ≠ .eof ∧ piece.lexeme.kind ≠ .directive)
    (within : ∀ piece ∈ pieces, piece.lexeme.kind ≠ .newline) :
    (Token.spelled ((placePieces file lineStart positions pieces lastGap).map (·.token))).map
        (·.relocated place) =
      (pieces.map (Piece.token place)).modifyHead fun token =>
        token.withLeadingSpace (token.leadingSpace || lineStart) := by
  induction pieces generalizing lineStart positions with
  | nil => rfl
  | cons piece pieces ih =>
    obtain ⟨here, kinds⟩ := List.forall_mem_cons.mp kinds
    obtain ⟨notNewline, within⟩ := List.forall_mem_cons.mp within
    rw [placePieces, List.map_cons, spelled_tokenOf here, if_neg notNewline, List.map_cons,
      ih kinds within, beq_false_of_ne notNewline]
    cases pieces <;> simp [Piece.token, Token.relocated, Token.withLeadingSpace, tokenOf]

end Pieces

theorem scanFlaws_eq_nil_iff {file source : String} : scanFlaws file source = [] ↔
    (∀ piece ∈ (cut (splice source.toList).text).pieces, piece.lexeme.unfinishedAt = none) ∧
      unclosedAt? (cut (splice source.toList).text).lastGap = none := by
  rw [scanFlaws, List.filterMap_eq_nil_iff]
  exact flawless_placePieces_iff

theorem molds_rescan (text : String) (place : Location) :
    (rescan text place).map Token.mold =
      ((cut (splice text.toList).text).pieces.filter
        fun piece => piece.lexeme.kind != .newline).map Piece.mold := by
  have molds : (Token.spelled (scanTokens place.file text)).map Token.mold = _ :=
    molds_placePieces fun _ => kind_of_mem_cut
  rw [rescan, placeTogether_eq, ← molds]
  cases Token.spelled (scanTokens place.file text) with
  | nil => rfl
  | cons first rest => simp [Token.mold, Token.relocated, Token.withLeadingSpace]

theorem molds_rescan_of_plain {text : String} {spelled : List Char} (same : text.toList = spelled)
    (plain : ∀ c ∈ spelled, c ≠ '\n' ∧ c ≠ '\r')
    (finished : ∀ piece ∈ (cut spelled).pieces, piece.lexeme.unfinishedAt = none)
    (place : Location) : (rescan text place).map Token.mold =
      (cut spelled).pieces.map Piece.mold := by
  rw [molds_rescan, same, text_splice_of_plain plain, List.filter_eq_self.mpr]
  intro piece inside
  refine bne_iff_ne.mpr fun newline => ?_
  obtain ⟨_, _, begins⟩ := begins_of_mem_cut inside
  have text := (shape_of_begins begins (finished piece inside)).eq_of_newline newline
  exact (plain '\n' (mem_of_mem_piece inside (by simp [text]))).1 rfl

theorem rescanStrict_eq_ok_iff {text : String} {place : Location} :
    rescanStrict text place = .ok tokens ↔
      ((∀ piece ∈ (cut (splice text.toList).text).pieces, piece.lexeme.unfinishedAt = none) ∧
        unclosedAt? (cut (splice text.toList).text).lastGap = none) ∧
      tokens = rescan text place := by
  rw [rescanStrict_eq, ← @scanFlaws_eq_nil_iff place.file]
  cases scanFlaws place.file text <;> simp [eq_comm]

theorem toList_spell (tokens : List Token) : (Token.spell tokens).toList = Token.following
    ((tokens.filter fun token => !token.endsLine).modifyHead (·.withLeadingSpace false)) := by
  have joined (rest : List Token) :
      (String.join (rest.map Token.spelledAfter)).toList = Token.following rest := by
    induction rest with
    | nil => rfl
    | cons token rest ih =>
      have one : token.spelledAfter.toList = token.space ++ token.lexeme.toList := by
        unfold Token.spelledAfter Token.space
        split <;> simp
      rw [List.map_cons, String.join_cons, String.toList_append, ih, one]
      simp [Token.following]
  unfold Token.spell
  cases tokens.filter fun token => !token.endsLine with
  | nil => rfl
  | cons first rest => simp [joined, Token.following, Token.space, Token.withLeadingSpace]

theorem unbroken_following (unbroken : ∀ token ∈ tokens, token.Unbroken) :
    ∀ c ∈ Token.following tokens, c ≠ '\n' ∧ c ≠ '\r' := by
  intro c member
  obtain ⟨token, among, inside⟩ := List.mem_flatMap.mp member
  rcases List.mem_append.mp inside with space | text
  · rcases space_eq token with empty | spaced
    · simp [empty] at space
    · obtain rfl : c = ' ' := by simpa [spaced] using space
      decide
  · exact unbroken token among c text

theorem lexemes_eq_of_molds (finished : ∀ piece ∈ pieces, piece.lexeme.unfinishedAt = none)
    (same : pieces.map Piece.mold = tokens.map Token.mold) :
    pieces.map (·.lexeme) = tokens.map Token.toLexeme := by
  let lexemeOf (mold : TokenKind × String) : Lexeme := ⟨mold.1, mold.2.toList, none⟩
  have ofPiece : pieces.map (·.lexeme) = (pieces.map Piece.mold).map lexemeOf := by
    rw [List.map_map]
    refine List.map_congr_left fun piece member => ?_
    have complete := finished piece member
    cases lexeme : piece.lexeme
    simp_all [lexemeOf, Piece.mold]
  rw [ofPiece, same, List.map_map]
  rfl

theorem rescanStrict_following {text : String} (spelled : text.toList = Token.following tokens)
    (shaped : ∀ token ∈ tokens, token.Shaped) (unbroken : ∀ token ∈ tokens, token.Unbroken)
    (separate : Token.Separate tokens) (place : Location) :
    rescanStrict text place =
      .ok ((tokens.map (·.relocated place)).modifyHead (·.withLeadingSpace false)) := by
  have pieces : cut (splice text.toList).text = ⟨tokens.map Token.piece, []⟩ := by
    rw [spelled, text_splice_of_plain (unbroken_following unbroken)]
    simpa using cut_following shaped separate (.inl rfl)
  have within : ∀ piece ∈ tokens.map Token.piece, piece.lexeme.kind ≠ .newline := by
    simpa [Token.piece, Token.toLexeme] using fun token member => (shaped token member).2
  refine rescanStrict_eq_ok_iff.mpr ⟨?_, ?_⟩
  · rw [pieces]
    exact ⟨by simp [Token.piece, Token.toLexeme], rfl⟩
  · have kinds : ∀ piece ∈ tokens.map Token.piece, _ := fun piece member =>
      @kind_of_mem_cut (splice text.toList).text piece (by rwa [pieces])
    have same : (tokens.map Token.piece).map (Piece.token place) =
        tokens.map (·.relocated place) := by
      rw [List.map_map]
      refine List.map_congr_left fun token _ => ?_
      cases spaced : token.leadingSpace <;>
        simp [Piece.token, Token.piece, Token.toLexeme, Token.space, tokenOf, Token.relocated,
          spaced]
    unfold rescan scanTokens scan
    dsimp only
    rw [placeTogether_eq, pieces, spelled_placePieces place kinds within, same]
    cases tokens <;> rfl

/-- **Scanning what was spelled of separate tokens** gives them all at one place. -/
theorem rescanStrict_spell (shaped : ∀ token ∈ Token.spelled tokens, token.Shaped)
    (unbroken : ∀ token ∈ Token.spelled tokens, token.Unbroken)
    (separate : Token.Separate (Token.spelled tokens)) (place : Location) :
    rescanStrict (Token.spell tokens) place = .ok (placeTogether place tokens) := by
  have text : (Token.spell tokens).toList =
      Token.following ((Token.spelled tokens).modifyHead (·.withLeadingSpace false)) := by
    rw [toList_spell, Token.spelled]
    cases tokens.filter fun token => !token.endsLine with
    | nil => rfl
    | cons first rest =>
      simp only [List.map_cons, List.modifyHead_cons, Token.following, List.flatMap_cons,
        List.flatMap_map]
      rfl
  rw [placeTogether_eq]
  generalize Token.spelled tokens = spelled at *
  cases spelled with
  | nil => exact rescanStrict_following text shaped unbroken separate place
  | cons first rest =>
    rw [List.forall_mem_cons] at shaped unbroken
    exact @rescanStrict_following (first.withLeadingSpace false :: rest) _ text
      (List.forall_mem_cons.mpr shaped) (List.forall_mem_cons.mpr unbroken) separate place

theorem rescanStrict_following_iff {text : String} {tokens : List Token}
    (spelled : text.toList = Token.following tokens)
    (kept : ∀ token ∈ tokens, token.kind ≠ .newline)
    (shaped : ∀ token ∈ tokens, token.Unbroken → Shape token.kind token.lexeme.toList)
    (place : Location) :
    (∃ found, rescanStrict text place = .ok found ∧
      found.map Token.mold = tokens.map Token.mold) ↔
      (∀ token ∈ tokens, token.Unbroken) ∧ Token.Separate tokens := by
  constructor
  · rintro ⟨found, scanned, same⟩
    obtain ⟨⟨finished, _⟩, rfl⟩ := rescanStrict_eq_ok_iff.mp scanned
    rw [molds_rescan] at same
    have unbroken : ∀ token ∈ tokens, token.Unbroken := by
      intro token member
      have among : token.mold ∈ tokens.map Token.mold := List.mem_map_of_mem member
      rw [← same] at among
      obtain ⟨piece, inside, mold⟩ := List.mem_map.mp among
      obtain ⟨inside, notNewline⟩ := List.mem_filter.mp inside
      obtain ⟨_, _, begins⟩ := begins_of_mem_cut inside
      have shape := shape_of_begins begins (finished piece inside)
      have text : token.lexeme.toList = piece.lexeme.text := by
        have texts : String.ofList piece.lexeme.text = token.lexeme := congrArg Prod.snd mold
        simp [← texts]
      intro c here
      rw [text] at here
      exact ⟨shape.ne_newline (by simpa using notNewline) c here,
        ne_return_of_mem_splice c (mem_of_mem_piece inside here)⟩
    refine ⟨unbroken, ?_⟩
    have plain := unbroken_following unbroken
    rw [spelled, text_splice_of_plain plain] at finished
    rw [← molds_rescan text place, molds_rescan_of_plain spelled plain finished] at same
    refine separate_of_cut tokens ?_ (lexemes_eq_of_molds finished same)
    exact fun token member =>
      ⟨shaped token member (unbroken token member), kept token member⟩
  · rintro ⟨unbroken, separate⟩
    have shaped : ∀ token ∈ tokens, token.Shaped := fun token member =>
      ⟨shaped token member (unbroken token member), kept token member⟩
    refine ⟨_, rescanStrict_following spelled shaped unbroken separate place, ?_⟩
    cases tokens <;> simp [Token.mold, Token.relocated, Token.withLeadingSpace]

theorem spell_append_eof {finish : Token} (ended : finish.isEof = true) :
    Token.spell (tokens ++ [finish]) = Token.spell tokens := by
  have ends : finish.endsLine = true := by
    simp only [Token.isEof, beq_iff_eq] at ended
    simp [Token.endsLine, ended]
  unfold Token.spell
  simp [ends]

/-- **Scanning spelled tokens.** Among tokens that a scan could give, the spelling of some is
scanned to the same tokens again exactly when there is no line break in any of them and none runs on
into what is spelled after it. -/
theorem rescanStrict_spell_iff (plain : ∀ token ∈ tokens, token.endsLine = false)
    (shaped : ∀ token ∈ tokens, token.Unbroken → Shape token.kind token.lexeme.toList)
    (place : Location) :
    (∃ found, rescanStrict (Token.spell tokens) place = .ok found ∧
      found.map Token.mold = tokens.map Token.mold) ↔
      (∀ token ∈ tokens, token.Unbroken) ∧ Token.Separate tokens := by
  have spelled := toList_spell tokens
  rw [List.filter_eq_self.mpr (by simpa using plain)] at spelled
  have kept : ∀ token ∈ tokens, token.kind ≠ .newline := by
    intro token member newline
    have plain := plain token member
    simp [Token.endsLine, newline] at plain
  cases tokens with
  | nil => exact rescanStrict_following_iff spelled kept shaped place
  | cons first rest =>
    rw [List.forall_mem_cons] at kept shaped ⊢
    have unspaced := @rescanStrict_following_iff _ (first.withLeadingSpace false :: rest) spelled
      (List.forall_mem_cons.mpr kept) (List.forall_mem_cons.mpr shaped) place
    rwa [List.forall_mem_cons] at unspaced

end Rescan

end Preproc
