/-! # What stands between tokens

Blanks and comments separate tokens. A gap is a list of such trivia, and its text is what was
written; nothing is lost when a gap is cut off the front of a text.
-/

namespace Preproc.Source

/-- The characters that separate tokens on a line. -/
def isBlank (c : Char) : Bool :=
  c == ' ' || c == '\t' || c == '\x0b' || c == '\x0c'

/-- One blank or one comment. -/
inductive Trivia where
  | blank (c : Char)
  /-- A comment up to the end of its line; the newline is not part of it. -/
  | lineComment (body : List Char)
  /-- A comment between delimiters; one that is not closed runs to the end of the text. -/
  | blockComment (body : List Char) (closed : Bool)
  deriving DecidableEq, Repr

/-- What was written. -/
def Trivia.text : Trivia → List Char
  | .blank c => [c]
  | .lineComment body => '/' :: '/' :: body
  | .blockComment body closed => '/' :: '*' :: body ++ if closed then ['*', '/'] else []

/-- Cuts the body of a block comment off a text: the body, and what follows the closing
delimiter if there is one. -/
def splitComment : List Char → List Char × Option (List Char)
  | [] => ([], none)
  | '*' :: '/' :: rest => ([], some rest)
  | c :: rest =>
    let (body, after) := splitComment rest
    (c :: body, after)

/-- The trivia at the front of a text, and what follows it. -/
def trivia? : List Char → Option (Trivia × List Char)
  | '/' :: '/' :: rest =>
    some (.lineComment (rest.takeWhile (· != '\n')), rest.dropWhile (· != '\n'))
  | '/' :: '*' :: rest =>
    match splitComment rest with
    | (body, some after) => some (.blockComment body true, after)
    | (body, none) => some (.blockComment body false, [])
  | c :: rest => if isBlank c then some (.blank c, rest) else none
  | [] => none

theorem splitComment_text (text : List Char) :
    (splitComment text).1 ++ (match (splitComment text).2 with
      | some after => '*' :: '/' :: after
      | none => []) = text := by
  fun_induction splitComment text with
  | case1 => rfl
  | case2 rest => rfl
  | case3 c rest _ body after split ih =>
    simp only [split] at ih
    simp [ih]

/-- Cutting off trivia loses nothing. -/
theorem trivia?_text {text rest : List Char} {trivia : Trivia}
    (cut : trivia? text = some (trivia, rest)) : trivia.text ++ rest = text := by
  unfold trivia? at cut
  split at cut
  · simp only [Option.some.injEq, Prod.mk.injEq] at cut
    obtain ⟨rfl, rfl⟩ := cut
    simp [Trivia.text]
  · rename_i body
    have whole := splitComment_text body
    split at cut <;> rename_i split <;>
      simp only [Option.some.injEq, Prod.mk.injEq] at cut <;> obtain ⟨rfl, rfl⟩ := cut <;>
      simp only [split] at whole <;> simp [Trivia.text, ← whole]
  · split at cut
    · simp only [Option.some.injEq, Prod.mk.injEq] at cut
      obtain ⟨rfl, rfl⟩ := cut
      rfl
    · simp at cut
  · simp at cut

theorem Trivia.text_ne_nil (trivia : Trivia) : trivia.text ≠ [] := by
  cases trivia <;> simp [Trivia.text]

theorem trivia?_length {text rest : List Char} {trivia : Trivia}
    (cut : trivia? text = some (trivia, rest)) : rest.length < text.length := by
  have whole := congrArg List.length (trivia?_text cut)
  have positive := List.length_pos_iff.2 trivia.text_ne_nil
  simp only [List.length_append] at whole
  omega

/-- Cuts the gap off the front of a text: all trivia before the next token. -/
def splitGap (text : List Char) : List Trivia × List Char :=
  match _cut : trivia? text with
  | none => ([], text)
  | some (trivia, rest) =>
    let (gap, after) := splitGap rest
    (trivia :: gap, after)
termination_by text.length
decreasing_by exact trivia?_length _cut

def gapText (gap : List Trivia) : List Char :=
  gap.flatMap Trivia.text

/-- How far into a gap an unclosed comment begins. -/
def unclosedAt? : List Trivia → Option Nat
  | [] => none
  | .blockComment _ false :: _ => some 0
  | trivia :: rest => (unclosedAt? rest).map (trivia.text.length + ·)

/-- Cutting off a gap loses nothing. -/
theorem splitGap_text (text : List Char) :
    gapText (splitGap text).1 ++ (splitGap text).2 = text := by
  fun_induction splitGap text with
  | case1 text cut => rfl
  | case2 text trivia rest cut gap after split ih =>
    simp only [split] at ih
    simp only [gapText, List.flatMap_cons, List.append_assoc] at ih ⊢
    rw [ih, trivia?_text cut]

theorem splitGap_length (text : List Char) : (splitGap text).2.length ≤ text.length := by
  have whole := congrArg List.length (splitGap_text text)
  simp only [List.length_append] at whole
  omega

end Preproc.Source
