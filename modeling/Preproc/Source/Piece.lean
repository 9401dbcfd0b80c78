import Preproc.Source.Lexeme

/-! # Cutting a text into pieces

A logical text is a sequence of pieces, each a gap and the lexeme after it, and a last gap. The
pieces put together again give the text.
-/

namespace Preproc.Source

/-- A lexeme and the gap before it. -/
structure Piece where
  gap : List Trivia
  lexeme : Lexeme
  deriving Repr

/-- What was written. -/
def Piece.text (piece : Piece) : List Char :=
  gapText piece.gap ++ piece.lexeme.text

/-- A whole text: its pieces, and the gap before its end. -/
structure Pieces where
  pieces : List Piece
  lastGap : List Trivia
  deriving Repr

/-- What was written. -/
def Pieces.text (whole : Pieces) : List Char :=
  whole.pieces.flatMap Piece.text ++ gapText whole.lastGap

def cut (text : List Char) : Pieces :=
  match _gap : splitGap text with
  | (gap, []) => ⟨[], gap⟩
  | (gap, c :: rest) =>
    let whole := cut (splitLexeme c rest).2
    ⟨⟨gap, (splitLexeme c rest).1⟩ :: whole.pieces, whole.lastGap⟩
termination_by text.length
decreasing_by
  have shorter := splitLexeme_length c rest
  have bounded := splitGap_length text
  rw [_gap] at bounded
  simp only [List.length_cons] at bounded
  omega

/-- Cutting a text loses no character. -/
theorem cut_text (text : List Char) : (cut text).text = text := by
  fun_induction cut text with
  | case1 text gap split =>
    have whole := splitGap_text text
    rw [split] at whole
    simpa [Pieces.text] using whole
  | case2 text gap c rest split whole ih =>
    have front := splitGap_text text
    rw [split] at front
    have lexeme := splitLexeme_text c rest
    simp only [Pieces.text] at ih
    simp only [Pieces.text, List.flatMap_cons, Piece.text, List.append_assoc, whole]
    rw [ih, lexeme, front]

end Preproc.Source
