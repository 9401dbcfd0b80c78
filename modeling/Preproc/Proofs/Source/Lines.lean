import Preproc.Proofs.Source.Respell

/-! # Scanning line by line

No lexeme goes on after the end of its line, and neither does a comment that is closed on its line.
So a source without spliced lines and without comments that span lines is scanned line by line: what
a line gives does not depend on the lines around it, apart from its number.

Main statement: `scan_eq_tokensFrom`.
-/

namespace Preproc

variable {text line : List Char} {lines : List (List Char)} {c : Char} {rest : List Char}

namespace Source

open Preproc.Text

section Newline

variable (more : List Char)

theorem splitLexeme_newline (noTrivia : trivia? (c :: rest) = none)
    (finished : (splitLexeme c rest).1.unfinishedAt = none)
    (notNewline : (splitLexeme c rest).1.kind ≠ .newline) :
    splitLexeme c (rest ++ '\n' :: more) =
      ((splitLexeme c rest).1, (splitLexeme c rest).2 ++ '\n' :: more) := by
  refine @splitLexeme_apart _ c rest [] _ _ (splitLexeme_text c rest) ?_ finished notNewline
    (by simp [Apart])
  rw [List.append_nil, List.append_nil]
  exact begins_cons_iff.mpr ⟨noTrivia, rfl⟩

theorem splitLexeme_of_newline (noNewline : '\n' ∉ c :: rest)
    (noTrivia : trivia? (c :: (rest ++ '\n' :: more)) = none)
    (finished : (splitLexeme c (rest ++ '\n' :: more)).1.unfinishedAt = none) :
    splitLexeme c (rest ++ '\n' :: more) =
      ((splitLexeme c rest).1, (splitLexeme c rest).2 ++ '\n' :: more) := by
  have whole := splitLexeme_text c (rest ++ '\n' :: more)
  generalize split : splitLexeme c (rest ++ '\n' :: more) = found at whole finished ⊢
  obtain ⟨lexeme, behind⟩ := found
  have begins := begins_cons_iff.mpr ⟨noTrivia, split⟩
  have shape := shape_of_begins begins finished
  have notNewline : lexeme.kind ≠ .newline := by
    intro newline
    rw [shape.eq_of_newline newline] at whole
    simp [← (List.cons.inj whole).1] at noNewline
  -- The lexeme has no newline in it, so the line goes on behind it.
  obtain ⟨after, inside, rfl⟩ : ∃ after, lexeme.text ++ after = c :: rest ∧
      behind = after ++ '\n' :: more := by
    have whole : lexeme.text ++ behind = (c :: rest) ++ '\n' :: more := whole
    rcases List.append_eq_append_iff.mp whole with
      ⟨after, inside, left⟩ | ⟨longer, outside, left⟩
    · exact ⟨after, inside.symm, left⟩
    · cases longer with
      | nil => exact ⟨[], by simpa using outside, by simpa using left.symm⟩
      | cons d longer =>
        obtain ⟨rfl, _⟩ := List.cons.inj left
        exact absurd rfl (shape.ne_newline notNewline '\n' (by simp [outside]))
  have alone := @splitLexeme_apart _ c rest _ [] _ inside begins finished notNewline
    (by simp [Apart])
  rw [List.append_nil, List.append_nil] at alone
  rw [alone]

theorem takeWhile_newline (part : Char → Bool) (ends : part '\n' = false) (text : List Char) :
    (text ++ '\n' :: more).takeWhile part = text.takeWhile part ∧
      (text ++ '\n' :: more).dropWhile part = text.dropWhile part ++ '\n' :: more := by
  induction text with
  | nil => simp [ends]
  | cons c rest ih => cases here : part c <;> simp [here, ih]

theorem splitComment_newline (text : List Char) :
    match (splitComment text).2 with
    | some after =>
      splitComment (text ++ '\n' :: more) = ((splitComment text).1, some (after ++ '\n' :: more))
    | none => '\n' ∈ (splitComment (text ++ '\n' :: more)).1 := by
  fun_induction splitComment text with
  | case1 => simp [splitComment]
  | case2 rest => simp [splitComment]
  | case3 c rest notClosed body after split ih =>
    rw [split] at ih
    have goesOn : splitComment (c :: (rest ++ '\n' :: more)) =
        (c :: (splitComment (rest ++ '\n' :: more)).1,
          (splitComment (rest ++ '\n' :: more)).2) := by
      rw [splitComment]
      intro after star closed
      cases rest with
      | nil => simp at closed
      | cons d rest =>
        obtain ⟨rfl, rfl⟩ := List.cons.inj closed
        exact notClosed rest star rfl
    rw [List.cons_append, goesOn]
    cases after with
    | none => exact List.mem_cons_of_mem c ih
    | some after =>
      rw [ih]

theorem trivia?_newline_none (missing : trivia? text = none) :
    trivia? (text ++ '\n' :: more) = .none := by
  match text, missing with
  | [], _ => simp [trivia?, isBlank]
  | [c], missing =>
    by_cases slash : c = '/'
    · simp [trivia?, slash, isBlank]
    · simpa [trivia?, slash] using missing
  | c :: d :: rest, missing =>
    rw [trivia?_eq_none_iff] at missing
    rw [List.cons_append, trivia?_eq_none_iff]
    simpa using missing

theorem trivia?_newline {after : List Char} {trivia : Trivia}
    (found : trivia? text = some (trivia, after)) :
    (unclosedAt? [trivia] = none ∧
      trivia? (text ++ '\n' :: more) = some (trivia, after ++ '\n' :: more)) ∨
    (after = [] ∧ (∃ body, trivia = .blockComment body false) ∧ ∃ longer rest,
      trivia? (text ++ '\n' :: more) = some (longer, rest) ∧ '\n' ∈ longer.text) := by
  unfold trivia? at found
  split at found
  next rest =>
    cases found
    have parts := takeWhile_newline more (· != '\n') rfl rest
    exact .inl ⟨rfl, by simp [trivia?, parts]⟩
  next rest =>
    split at found
    next body after split =>
      cases found
      have whole := splitComment_newline more rest
      simp only [split] at whole
      exact .inl ⟨rfl, by simp [trivia?, whole]⟩
    next body split =>
      cases found
      have spans := splitComment_newline more rest
      simp only [split] at spans
      refine .inr ⟨rfl, ⟨body, rfl⟩, ?_⟩
      simp only [List.cons_append, trivia?]
      split
      next longer rest whole =>
        rw [whole] at spans
        exact ⟨_, _, rfl, by simp [Trivia.text, spans]⟩
      next longer whole =>
        rw [whole] at spans
        exact ⟨_, _, rfl, by simp [Trivia.text, spans]⟩
  next c rest noLine noBlock =>
    split at found
    next blank =>
      cases found
      refine .inl ⟨rfl, ?_⟩
      have noSlash : c ≠ '/' := by
        rintro rfl
        simp [isBlank] at blank
      simp [trivia?, noSlash, blank]
    next => cases found
  next => cases found

theorem splitGap_newline (text : List Char) :
    (unclosedAt? (splitGap text).1 = none ∧
      splitGap (text ++ '\n' :: more) = ((splitGap text).1, (splitGap text).2 ++ '\n' :: more)) ∨
    (unclosedAt? (splitGap text).1 ≠ none ∧ (splitGap text).2 = [] ∧
      ∃ trivia ∈ (splitGap (text ++ '\n' :: more)).1, '\n' ∈ trivia.text) := by
  fun_induction splitGap text with
  | case1 text none => exact .inl ⟨rfl, splitGap_of_trivia? (trivia?_newline_none more none)⟩
  | case2 text trivia rest found gap after split ih =>
    rw [split] at ih
    rcases trivia?_newline more found with ⟨closed, whole⟩ |
      ⟨rfl, ⟨body, rfl⟩, longer, after', whole, spans⟩
    · rw [splitGap_of_trivia?_some whole]
      rw [unclosedAt?_cons closed]
      rcases ih with ⟨none, same⟩ | ⟨some, ended, other, inside, spans⟩
      · exact .inl ⟨by simp [none], by rw [same]⟩
      · refine .inr ⟨by simpa using some, ended, other, ?_, spans⟩
        exact List.mem_cons_of_mem _ inside
    · have empty : splitGap [] = ([], []) := splitGap_of_trivia? rfl
      rw [empty] at split
      cases split
      rw [splitGap_of_trivia?_some whole]
      exact .inr ⟨by simp [unclosedAt?], rfl, longer, List.mem_cons_self, spans⟩

end Newline

/-- The end of a line as a lexeme. -/
def newlineLexeme : Lexeme :=
  { kind := .newline, text := ['\n'] }

def ClosesComments (line : List Char) : Prop :=
  unclosedAt? (cut line).lastGap = none

def CommentsInLine (text : List Char) : Prop :=
  (∀ piece ∈ (cut text).pieces, ∀ trivia ∈ piece.gap, '\n' ∉ trivia.text) ∧
    ∀ trivia ∈ (cut text).lastGap, '\n' ∉ trivia.text

instance (text : List Char) : Decidable (CommentsInLine text) :=
  inferInstanceAs (Decidable (_ ∧ _))

theorem cut_newline (closes : ClosesComments line)
    (finished : ∀ piece ∈ (cut line).pieces, piece.lexeme.unfinishedAt = none)
    (inLine : ∀ piece ∈ (cut line).pieces, piece.lexeme.kind ≠ .newline) (more : List Char) :
    cut (line ++ '\n' :: more) =
      ⟨(cut line).pieces ++ ⟨(cut line).lastGap, newlineLexeme⟩ :: (cut more).pieces,
        (cut more).lastGap⟩ := by
  unfold ClosesComments at closes
  fun_induction cut line with
  | case1 text gap split =>
    rcases splitGap_newline more text with ⟨_, whole⟩ | ⟨some, _⟩
    · rw [split] at whole
      rw [cut_of_splitGap whole]
      rfl
    · rw [split] at some
      exact absurd closes some
  | case2 text gap c rest split whole ih =>
    obtain ⟨here, finished⟩ := List.forall_mem_cons.mp finished
    obtain ⟨notNewline, inLine⟩ := List.forall_mem_cons.mp inLine
    have noTrivia := trivia?_splitGap text
    rcases splitGap_newline more text with ⟨_, found⟩ | ⟨_, ended, _⟩
    · simp only [split, List.cons_append] at found noTrivia
      rw [cut_of_splitGap found, splitLexeme_newline more noTrivia here notNewline,
        ih closes finished inLine]
      rfl
    · rw [split] at ended
      cases ended

/-- Where no comment spans lines and no lexeme is unfinished, a line before another closes its
comments and finishes its lexemes. -/
theorem closes_of_commentsInLine {more : List Char} (noNewline : '\n' ∉ line)
    (inLine : CommentsInLine (line ++ '\n' :: more))
    (finished : ∀ piece ∈ (cut (line ++ '\n' :: more)).pieces, piece.lexeme.unfinishedAt = none) :
    ClosesComments line ∧ ∀ piece ∈ (cut line).pieces, piece.lexeme.unfinishedAt = none := by
  unfold ClosesComments
  fun_induction cut line with
  | case1 text gap split =>
    refine ⟨?_, by simp⟩
    rcases splitGap_newline more text with ⟨none, _⟩ | ⟨_, _, trivia, member, spans⟩
    · rw [split] at none
      exact none
    · -- The comment would be in the first gap, or in the last if there is no other.
      exfalso
      cases found : splitGap (text ++ '\n' :: more) with
      | mk gap after =>
        rw [found] at member
        cases after with
        | nil =>
          have whole := cut_nil_of_splitGap found
          exact inLine.2 trivia (by rw [whole]; exact member) spans
        | cons c rest =>
          have whole := cut_of_splitGap found
          exact inLine.1 ⟨gap, (splitLexeme c rest).1⟩ (by rw [whole]; simp) trivia member
            spans
  | case2 text gap c rest split whole ih =>
    rcases splitGap_newline more text with ⟨_, found⟩ | ⟨_, ended, _⟩
    · have noTrivia := trivia?_splitGap (text ++ '\n' :: more)
      simp only [split, List.cons_append] at found
      rw [found] at noTrivia
      have first := cut_of_splitGap found
      unfold CommentsInLine at inLine
      rw [first] at inLine finished
      have text_eq := splitGap_text text
      rw [split, ← splitLexeme_text c rest] at text_eq
      simp only [← text_eq, List.mem_append, not_or] at noNewline
      obtain ⟨here, finished⟩ := List.forall_mem_cons.mp finished
      have same := splitLexeme_of_newline more (by
        rw [← splitLexeme_text c rest, List.mem_append, not_or]
        exact noNewline.2) noTrivia here
      dsimp only at here
      rw [same] at inLine finished here
      obtain ⟨closes, later⟩ := ih noNewline.2.2
        ⟨fun piece member => inLine.1 piece (List.mem_cons_of_mem _ member), inLine.2⟩ finished
      exact ⟨closes, List.forall_mem_cons.mpr ⟨here, later⟩⟩
    · rw [split] at ended
      cases ended

/-- A line that is scanned by itself: it holds no line break, closes its comments and finishes its
literals. -/
structure Clean (line : List Char) : Prop where
  noNewline : '\n' ∉ line
  noReturn : '\r' ∉ line
  closes : ClosesComments line
  finished : ∀ piece ∈ (cut line).pieces, piece.lexeme.unfinishedAt = none

/-- The text with these lines. -/
def joinLines (lines : List (List Char)) : List Char :=
  ['\n'].intercalate lines

theorem joinLines_cons_cons (line next : List Char) (rest : List (List Char)) :
    joinLines (line :: next :: rest) = line ++ '\n' :: joinLines (next :: rest) := by
  simp [joinLines]

/-- The positions of so many columns of a line. -/
def columns (number column count : Nat) : List Position :=
  (List.range' column count).map (⟨number, ·⟩)

theorem columns_succ (number column count : Nat) :
    columns number column (count + 1) = ⟨number, column⟩ :: columns number (column + 1) count := by
  simp [columns, List.range'_succ]

theorem positionsFrom_append (noNewline : '\n' ∉ line) (number column : Nat) (more : List Char) :
    positionsFrom ⟨number, column⟩ (line ++ more) =
      columns number column line.length ++ positionsFrom ⟨number, column + line.length⟩ more := by
  induction line generalizing column with
  | nil => rfl
  | cons c line ih =>
    simp only [List.mem_cons, not_or] at noNewline
    have other : (c == '\n') = false := beq_false_of_ne (Ne.symm noNewline.1)
    rw [List.cons_append, positionsFrom]
    simp only [Position.after, other, Bool.false_eq_true, if_false, Position.nextColumn]
    rw [ih noNewline.2, List.length_cons, columns_succ number column, List.cons_append,
      Nat.add_right_comm, Nat.add_assoc]

theorem positionsFrom_line (noNewline : '\n' ∉ line) (number column : Nat) (more : List Char) :
    positionsFrom ⟨number, column⟩ (line ++ '\n' :: more) =
      columns number column (line.length + 1) ++ positionsFrom ⟨number + 1, 1⟩ more := by
  rw [positionsFrom_append noNewline]
  simp [positionsFrom, Position.after, Position.nextLine, columns, List.range'_concat]

theorem positionsFrom_lastLine (noNewline : '\n' ∉ line) (number column : Nat) :
    positionsFrom ⟨number, column⟩ line = columns number column (line.length + 1) := by
  have whole := positionsFrom_append noNewline number column []
  rw [List.append_nil] at whole
  simp [whole, positionsFrom, columns, List.range'_concat]

end Source

open Source

/-- The tokens of the pieces of a line, from a column on. -/
def placeLine (file : String) (number : Nat) :
    (lineStart : Bool) → (column : Nat) → List Piece → List Token
  | _, _, [] => []
  | lineStart, column, piece :: rest =>
    let here := column + (gapText piece.gap).length
    tokenOf piece.lexeme ⟨file, number, here⟩ (!piece.gap.isEmpty) lineStart ::
      placeLine file number false (here + piece.lexeme.text.length) rest

/-- The tokens of a line, without its end. -/
def lineTokens (file : String) (number : Nat) (line : List Char) : List Token :=
  placeLine file number true 1 (cut line).pieces

/-- The end of a line that another line follows. -/
def lineEnd (file : String) (number : Nat) (line : List Char) : Token :=
  tokenOf newlineLexeme ⟨file, number, (line.length + 1 : Nat)⟩ (!(cut line).lastGap.isEmpty) false

/-- The tokens of lines from a number on, and the end of the input. -/
def tokensFrom (file : String) : Nat → List (List Char) → List Token
  | _, [] => []
  | number, [line] =>
    lineTokens file number line ++ [.endOfInput ⟨file, number, (line.length + 1 : Nat)⟩]
  | number, line :: next :: rest =>
    lineTokens file number line ++
      lineEnd file number line :: tokensFrom file (number + 1) (next :: rest)

section Placing

variable {file : String} {number column : Nat}

theorem drop_columns {count skipped : Nat} (inside : skipped ≤ count) (later : List Position) :
    (columns number column count ++ later).drop skipped =
      columns number (column + skipped) (count - skipped) ++ later := by
  unfold columns
  rw [List.drop_append_of_le_length (by simpa using inside), ← List.map_drop, List.drop_range',
    Nat.mul_one]

theorem placeAt_columns {count : Nat} (positive : 0 < count) (later : List Position) :
    placeAt file (columns number column count ++ later) = ⟨file, number, column⟩ := by
  obtain ⟨count, rfl⟩ := Nat.exists_eq_succ_of_ne_zero (Nat.ne_of_gt positive)
  rfl

theorem placePieces_line {pieces : List Piece}
    (inLine : ∀ piece ∈ pieces, piece.lexeme.kind ≠ .newline)
    (finished : ∀ piece ∈ pieces, piece.lexeme.unfinishedAt = none) (lineStart : Bool)
    {count : Nat} (enough : (pieces.flatMap Piece.text).length < count) (later : List Position)
    (more : List Piece) (lastGap : List Trivia) :
    placePieces file lineStart (columns number column count ++ later) (pieces ++ more) lastGap =
      (placeLine file number lineStart column pieces).map (fun token => { token : Scanned }) ++
        placePieces file (lineStart && pieces.isEmpty)
          (columns number (column + (pieces.flatMap Piece.text).length)
            (count - (pieces.flatMap Piece.text).length) ++ later) more lastGap := by
  induction pieces generalizing lineStart column count with
  | nil => simp [placeLine]
  | cons piece pieces ih =>
    obtain ⟨noNewline, inLine⟩ := List.forall_mem_cons.mp inLine
    obtain ⟨whole, finished⟩ := List.forall_mem_cons.mp finished
    have kind : (piece.lexeme.kind == .newline) = false := by simpa using noNewline
    simp only [List.flatMap_cons, Piece.text, List.length_append] at enough ⊢
    have gap : (gapText piece.gap).length ≤ count := by omega
    have lexeme : piece.lexeme.text.length ≤ count - (gapText piece.gap).length := by omega
    have positive : 0 < count - (gapText piece.gap).length := by omega
    rw [List.cons_append, placePieces]
    rw [drop_columns gap, placeAt_columns positive, drop_columns lexeme, kind, whole,
      ih inLine finished false (by omega), placeLine]
    simp only [List.map_cons, Option.map_none, List.cons_append, List.isEmpty_cons,
      Bool.false_and, Bool.and_false, Nat.add_assoc, Nat.sub_sub]

theorem kind_of_mem_line (noNewline : '\n' ∉ line) {piece : Piece}
    (member : piece ∈ (cut line).pieces) (whole : piece.lexeme.unfinishedAt = none) :
    piece.lexeme.kind ≠ .newline := by
  intro newline
  obtain ⟨_, _, begins⟩ := begins_of_mem_cut member
  have text := (shape_of_begins begins whole).eq_of_newline newline
  exact noNewline (mem_of_mem_piece member (by simp [text]))

theorem tokenOf_newlineLexeme (location : Location) (spaced lineStart : Bool) :
    tokenOf newlineLexeme location spaced lineStart =
      tokenOf newlineLexeme location spaced false := by
  cases lineStart <;> simp [tokenOf, newlineLexeme]

theorem placePieces_joinLines (nonempty : lines ≠ []) (clean : ∀ line ∈ lines, Clean line) :
    placePieces file true (positionsFrom ⟨number, 1⟩ (joinLines lines))
        (cut (joinLines lines)).pieces (cut (joinLines lines)).lastGap =
      (tokensFrom file number lines).map fun token => { token } := by
  induction lines generalizing number with
  | nil => exact absurd rfl nonempty
  | cons line rest ih =>
    obtain ⟨here, clean⟩ := List.forall_mem_cons.mp clean
    have inLine := fun piece member =>
      kind_of_mem_line here.noNewline member (here.finished piece member)
    have length : ((cut line).pieces.flatMap Piece.text).length +
        (gapText (cut line).lastGap).length = line.length := by
      rw [← List.length_append]
      exact congrArg List.length (cut_text line)
    have gap : (gapText (cut line).lastGap).length ≤
        line.length + 1 - ((cut line).pieces.flatMap Piece.text).length := by omega
    have room : 0 < line.length + 1 - ((cut line).pieces.flatMap Piece.text).length -
        (gapText (cut line).lastGap).length := by omega
    have last : 1 + ((cut line).pieces.flatMap Piece.text).length +
        (gapText (cut line).lastGap).length = line.length + 1 := by omega
    cases rest with
    | nil =>
      have alone : joinLines [line] = line := by simp [joinLines]
      have placed := @placePieces_line file number 1 _ inLine here.finished true
        (line.length + 1) (by omega) [] [] (cut line).lastGap
      rw [List.append_nil, List.append_nil] at placed
      rw [alone, positionsFrom_lastLine here.noNewline, placed, placePieces, here.closes]
      rw [drop_columns gap, placeAt_columns room, last]
      simp [tokensFrom, lineTokens]
    | cons next rest =>
      rw [joinLines_cons_cons, cut_newline here.closes here.finished inLine,
        positionsFrom_line here.noNewline,
        placePieces_line inLine here.finished true (by omega), placePieces]
      have one : newlineLexeme.text.length ≤ line.length + 1 -
          ((cut line).pieces.flatMap Piece.text).length -
          (gapText (cut line).lastGap).length := room
      have all : line.length + 1 - ((cut line).pieces.flatMap Piece.text).length -
          (gapText (cut line).lastGap).length - newlineLexeme.text.length = 0 := by
        change _ - 1 = 0
        omega
      rw [drop_columns gap, placeAt_columns room, drop_columns one, last, all,
        tokenOf_newlineLexeme]
      have later := @ih (number + 1) (List.cons_ne_nil _ _) clean
      simp only [tokensFrom, List.map_append, List.map_cons, ← later]
      rfl

end Placing

namespace Source

theorem unspliced_cons :
    Unspliced (c :: rest) ↔ ¬ (c = '\\' ∧ rest.head? = some '\n') ∧ Unspliced rest := by
  unfold Unspliced
  have first : ['\\', '\n'] <+: c :: rest ↔ c = '\\' ∧ rest.head? = some '\n' := by
    cases rest <;> simp [List.cons_prefix_cons, eq_comm]
  rw [List.infix_cons_iff, first, not_or]

theorem unspliced_line {more : List Char} (noNewline : '\n' ∉ line) :
    Unspliced (line ++ '\n' :: more) ↔ line.getLast? ≠ some '\\' ∧ Unspliced more := by
  induction line with
  | nil => simp [unspliced_cons]
  | cons c line ih =>
    simp only [List.mem_cons, not_or] at noNewline
    rw [List.cons_append, unspliced_cons, ih noNewline.2]
    cases line with
    | nil => simp
    | cons d line =>
      have other : d ≠ '\n' := fun same => noNewline.2 (by simp [same])
      simp [other, List.getLast?_cons_cons]

/-- Whether no line ends in a backslash, apart from the last. -/
def NoneSpliced (lines : List (List Char)) : Prop :=
  ∀ line ∈ lines.dropLast, line.getLast? ≠ some '\\'

theorem unspliced_joinLines (nonempty : lines ≠ []) (noNewline : ∀ line ∈ lines, '\n' ∉ line) :
    Unspliced (joinLines lines) ↔ NoneSpliced lines := by
  induction lines with
  | nil => exact absurd rfl nonempty
  | cons line rest ih =>
    obtain ⟨here, noNewline⟩ := List.forall_mem_cons.mp noNewline
    cases rest with
    | nil => simp [joinLines, NoneSpliced, unspliced_of_plain here]
    | cons next rest =>
      rw [joinLines_cons_cons, unspliced_line here, ih (List.cons_ne_nil _ _) noNewline]
      simp [NoneSpliced, List.dropLast]

end Source

def sourceLines (source : String) : List (List Char) :=
  (normalizeNewlines source.toList).splitOn '\n'

/-- The source with these lines. -/
def ofLines (lines : List (List Char)) : String :=
  String.ofList (joinLines lines)

theorem mem_joinLines :
    c ∈ joinLines lines ↔ (∃ line ∈ lines, c ∈ line) ∨ (c = '\n' ∧ 1 < lines.length) := by
  induction lines with
  | nil => simp [joinLines]
  | cons line rest ih =>
    cases rest with
    | nil => simp [joinLines]
    | cons next rest =>
      rw [joinLines_cons_cons, List.mem_append, List.mem_cons, ih]
      grind

theorem scan_ofLines (nonempty : lines ≠ [])
    (clean : ∀ line ∈ lines, Clean line) (noneSpliced : NoneSpliced lines) (file : String) :
    scan file (ofLines lines) = (tokensFrom file 1 lines).map fun token => { token } := by
  have noReturn : ∀ c ∈ joinLines lines, c ≠ '\r' := by
    rintro c member rfl
    rcases mem_joinLines.mp member with ⟨line, among, inside⟩ | ⟨newline, _⟩
    · exact (clean line among).noReturn inside
    · simp at newline
  have unspliced : Unspliced (joinLines lines) :=
    (unspliced_joinLines nonempty fun line member => (clean line member).noNewline).mpr noneSpliced
  obtain ⟨text, positions⟩ := spliceFrom_of_unspliced unspliced .start
  unfold scan splice ofLines
  rw [String.toList_ofList, normalizeNewlines_of_plain noReturn]
  dsimp only
  rw [text, positions]
  exact placePieces_joinLines nonempty clean

theorem not_mem_of_mem_splitOn (text : List Char) : ∀ line ∈ text.splitOn '\n', '\n' ∉ line := by
  induction text with
  | nil => simp
  | cons c rest ih =>
    rw [List.splitOn_cons_eq_if_modifyHead]
    split
    next newline => simpa using ih
    next other =>
      obtain ⟨first, lines, split⟩ := List.exists_cons_of_ne_nil (List.splitOn_ne_nil '\n' rest)
      rw [split, List.modifyHead_cons]
      rw [split, List.forall_mem_cons] at ih
      refine List.forall_mem_cons.mpr ⟨?_, ih.2⟩
      rw [List.mem_cons, not_or]
      exact ⟨fun same => other (by simp [← same]), ih.1⟩

theorem clean_of_joinLines (noNewline : ∀ line ∈ lines, '\n' ∉ line)
    (noReturn : ∀ line ∈ lines, '\r' ∉ line) (inLine : CommentsInLine (joinLines lines))
    (finished : ∀ piece ∈ (cut (joinLines lines)).pieces, piece.lexeme.unfinishedAt = none)
    (closed : unclosedAt? (cut (joinLines lines)).lastGap = none) :
    ∀ line ∈ lines, Clean line := by
  induction lines with
  | nil => simp
  | cons line rest ih =>
    obtain ⟨here, noNewline⟩ := List.forall_mem_cons.mp noNewline
    obtain ⟨plain, noReturn⟩ := List.forall_mem_cons.mp noReturn
    cases rest with
    | nil =>
      have alone : joinLines [line] = line := by simp [joinLines]
      rw [alone] at finished closed
      exact List.forall_mem_singleton.mpr ⟨here, plain, closed, finished⟩
    | cons next rest =>
      rw [joinLines_cons_cons] at inLine finished closed
      obtain ⟨closes, first⟩ := closes_of_commentsInLine here inLine finished
      unfold CommentsInLine at inLine
      rw [cut_newline closes first fun piece member => kind_of_mem_line here member
        (first piece member)] at inLine finished closed
      obtain ⟨_, later⟩ := List.forall_mem_append.mp finished
      obtain ⟨_, later⟩ := List.forall_mem_cons.mp later
      refine List.forall_mem_cons.mpr ⟨⟨here, plain, closes, first⟩, ?_⟩
      refine ih noNewline noReturn ⟨fun piece member => ?_, inLine.2⟩ later closed
      exact inLine.1 piece (List.mem_append_right _ (List.mem_cons_of_mem _ member))

section Source

variable {source file : String}

theorem joinLines_sourceLines : joinLines (sourceLines source) = normalizeNewlines source.toList :=
  List.intercalate_splitOn '\n'

theorem sourceLines_ne_nil : sourceLines source ≠ [] :=
  List.splitOn_ne_nil _ _

theorem not_mem_of_mem_sourceLines (member : line ∈ sourceLines source) : '\n' ∉ line :=
  not_mem_of_mem_splitOn _ line member

theorem clean_of_mem_sourceLines (unspliced : Unspliced (normalizeNewlines source.toList))
    (inLine : CommentsInLine (normalizeNewlines source.toList))
    (flawless : scanFlaws file source = []) : ∀ line ∈ sourceLines source, Clean line := by
  have text := (spliceFrom_of_unspliced unspliced .start).1
  have each := scanFlaws_eq_nil_iff.mp flawless
  unfold splice at each
  rw [text, ← joinLines_sourceLines] at each
  rw [← joinLines_sourceLines] at inLine
  apply clean_of_joinLines (fun _ => not_mem_of_mem_sourceLines) _ inLine each.1 each.2
  intro line member inside
  have among := mem_joinLines.mpr (.inl ⟨line, member, inside⟩)
  rw [joinLines_sourceLines] at among
  exact ne_return_of_mem_normalizeNewlines _ among rfl

theorem noneSpliced_sourceLines (unspliced : Unspliced (normalizeNewlines source.toList)) :
    NoneSpliced (sourceLines source) := by
  rw [← joinLines_sourceLines] at unspliced
  exact (unspliced_joinLines sourceLines_ne_nil fun _ => not_mem_of_mem_sourceLines).mp unspliced

theorem normalizeNewlines_idem (text : List Char) :
    normalizeNewlines (normalizeNewlines text) = normalizeNewlines text :=
  normalizeNewlines_of_plain ne_return_of_mem_normalizeNewlines

/-- A source without spliced lines, comments that span lines, or flaws is scanned line by line. -/
theorem scan_eq_tokensFrom (unspliced : Unspliced (normalizeNewlines source.toList))
    (inLine : CommentsInLine (normalizeNewlines source.toList))
    (flawless : scanFlaws file source = []) :
    scan file source = (tokensFrom file 1 (sourceLines source)).map fun token => { token } := by
  have split : scan file source = scan file (ofLines (sourceLines source)) := by
    unfold scan splice ofLines
    rw [joinLines_sourceLines, String.toList_ofList, normalizeNewlines_idem]
  rw [split]
  exact scan_ofLines sourceLines_ne_nil (clean_of_mem_sourceLines unspliced inLine flawless)
    (noneSpliced_sourceLines unspliced) file

end Source

end Preproc
