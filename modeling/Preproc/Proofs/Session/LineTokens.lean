import Preproc.Proofs.Session.Alone

/-! # The tokens of lines

A source whose lines are scanned one by one has the tokens of each line between two ends of lines.
The directive on a line is known from its text: `lineDirective?`.

Main statement: `fullLine_cases`.
-/

namespace Preproc

open Source

/-- The directive on a line, if it begins with `#` and a name. -/
def lineDirective? (line : List Char) : Option Directive :=
  directiveOn (lineTokens "" 0 line)

/-- The tokens of a line that another line follows. -/
def fullLine (file : String) (number : Nat) (line : List Char) : List Token :=
  lineTokens file number line ++ [lineEnd file number line]

variable {file : String} {number : Nat} {line : List Char}

theorem tokensFrom_cons {more : List (List Char)} (nonempty : more ≠ []) :
    tokensFrom file number (line :: more) =
      fullLine file number line ++ tokensFrom file (number + 1) more := by
  cases more with
  | nil => exact absurd rfl nonempty
  | cons next rest => simp [tokensFrom, fullLine]

theorem cut_nil : cut [] = ⟨[], []⟩ :=
  cut_nil_of_splitGap (splitGap_of_trivia? rfl)

theorem clean_nil : Clean [] where
  noNewline := by simp
  noReturn := by simp
  closes := by
    rw [ClosesComments, cut_nil]
    rfl
  finished := by simp [cut_nil]

theorem fullLine_nil : fullLine file number [] = [lineEnd file number []] := by
  simp [fullLine, lineTokens, cut_nil, placeLine]

theorem directiveOn_lineTokens (file : String) (number : Nat) (line : List Char) :
    directiveOn (lineTokens file number line) = lineDirective? line := by
  unfold lineDirective? lineTokens
  match (cut line).pieces with
  | [] => rfl
  | [piece] => rfl
  | first :: second :: rest => rfl

theorem kind_lineEnd : (lineEnd file number line).kind = .newline := by
  simp [lineEnd, tokenOf, newlineLexeme]

theorem directiveOn_fullLine (file : String) (number : Nat) (line : List Char) :
    directiveOn (fullLine file number line) = lineDirective? line := by
  rw [← directiveOn_lineTokens file number line]
  unfold fullLine
  match lineTokens file number line with
  | [] => rfl
  | [mark] => simp [directiveOn, Token.directive?, Token.isIdentifier, kind_lineEnd]
  | mark :: name :: rest => rfl

theorem inside_tokenOf {piece : Piece} (clean : Clean line) (member : piece ∈ (cut line).pieces)
    (location : Location) (spaced start : Bool)
    (plain : (tokenOf piece.lexeme location spaced start).kind ≠ .directive) :
    (tokenOf piece.lexeme location spaced start).Midline ∧
      (tokenOf piece.lexeme location spaced start).isEof = false := by
  have notNewline := kind_of_mem_line clean.noNewline member (clean.finished piece member)
  obtain ⟨_, _, begins⟩ := begins_of_mem_cut member
  refine ⟨⟨plain, ?_⟩, (solid_tokenOf begins location spaced start).1⟩
  unfold tokenOf at plain ⊢
  dsimp only at plain ⊢
  split
  · decide
  · exact notNewline

theorem plain_tokenOf {piece : Piece} (member : piece ∈ (cut line).pieces) (location : Location)
    (spaced : Bool) : (tokenOf piece.lexeme location spaced false).kind ≠ .directive := by
  obtain ⟨_, _, _, c, rest, _, split⟩ := begins_of_mem_cut member
  have kind := (kind_splitLexeme c rest).2
  rw [split] at kind
  simpa [tokenOf] using kind

theorem lineRest_placeLine (clean : Clean line) {pieces : List Piece}
    (members : ∀ piece ∈ pieces, piece ∈ (cut line).pieces) (column : Nat) {newline : Token}
    (kind : newline.kind = .newline) :
    LineRest (placeLine file number false column pieces ++ [newline]) := by
  induction pieces generalizing column with
  | nil => exact kind
  | cons piece pieces ih =>
    obtain ⟨here, later⟩ := List.forall_mem_cons.mp members
    have rest := ih later (column + (gapText piece.gap).length + piece.lexeme.text.length)
    have inside := inside_tokenOf clean here
      ⟨file, number, (column + (gapText piece.gap).length : Nat)⟩ (!piece.gap.isEmpty) false
      (plain_tokenOf here _ _)
    unfold placeLine
    rw [List.cons_append]
    generalize placeLine file number false _ pieces ++ [newline] = tokens at rest
    cases tokens with
    | nil => exact rest.elim
    | cons token tokens => exact ⟨inside, rest⟩

/-- A line opens a directive, or all of it stays inside. -/
theorem fullLine_cases (clean : Clean line) :
    (LineRest (fullLine file number line) ∧ lineDirective? line = none) ∨
      ∃ mark name later, fullLine file number line = mark :: name :: later ∧
        mark.kind = .directive ∧ LineRest (name :: later) ∧
        name.directive? = lineDirective? line := by
  have onWhole := directiveOn_fullLine file number line
  unfold fullLine lineTokens at onWhole ⊢
  cases pieces : (cut line).pieces with
  | nil =>
    rw [pieces] at onWhole
    exact .inl ⟨kind_lineEnd, onWhole.symm⟩
  | cons piece rest =>
    have among : piece ∈ (cut line).pieces := by simp [pieces]
    have later : ∀ other ∈ rest, other ∈ (cut line).pieces := fun other member => by
      simp [pieces, member]
    rw [pieces] at onWhole
    unfold placeLine at onWhole ⊢
    rw [List.cons_append] at onWhole ⊢
    have newline : (lineEnd file number line).kind = .newline := kind_lineEnd
    have rest : LineRest (placeLine file number false
        (1 + (gapText piece.gap).length + piece.lexeme.text.length) rest ++
          [lineEnd file number line]) := lineRest_placeLine clean later _ newline
    generalize placeLine file number false _ _ ++ [lineEnd file number line] = tokens
      at rest onWhole ⊢
    have inside := inside_tokenOf clean among
      ⟨file, number, (1 + (gapText piece.gap).length : Nat)⟩ (!piece.gap.isEmpty) true
    cases tokens with
    | nil => exact rest.elim
    | cons name tokens =>
      generalize tokenOf piece.lexeme _ _ true = mark at onWhole inside ⊢
      by_cases opens : mark.kind = .directive
      · refine .inr ⟨mark, name, tokens, rfl, opens, rest, ?_⟩
        rw [← onWhole, directiveOn, if_pos opens]
      · refine .inl ⟨⟨inside opens, rest⟩, ?_⟩
        rw [← onWhole, directiveOn, if_neg opens]

theorem whole_of_clean (clean : Clean line) : WholeLine (fullLine file number line) := by
  rcases fullLine_cases clean with ⟨inside, _⟩ | ⟨mark, name, later, whole, kind, inside, _⟩
  · exact .inl inside
  · exact .inr ⟨mark, name, later, whole, kind, inside⟩

theorem terminated_tokensFrom {lines : List (List Char)} (nonempty : lines ≠ [])
    (clean : ∀ line ∈ lines, Clean line) : Terminated (tokensFrom file number lines) := by
  induction lines generalizing number with
  | nil => exact absurd rfl nonempty
  | cons line more ih =>
    obtain ⟨here, clean⟩ := List.forall_mem_cons.mp clean
    cases more with
    | nil =>
      have ends : Terminated [Token.endOfInput ⟨file, number, (line.length + 1 : Nat)⟩] := rfl
      apply ends.append
      exact fun token member => (whole_of_clean here).goesOn token (List.mem_append_left _ member)
    | cons next more =>
      rw [tokensFrom_cons (List.cons_ne_nil _ _)]
      exact (ih (List.cons_ne_nil _ _) clean).append (whole_of_clean here).goesOn

end Preproc
