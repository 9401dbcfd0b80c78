import Preproc.Source.Trivia
import Preproc.Text.Character
import Preproc.Token.Basic

/-! # Lexemes

The lexeme at the front of a text is a newline, a literal, a number, an identifier, the longest
punctuator that fits, or a single other character, tried in this order. A literal that its line
does not finish ends before the newline and is marked.
-/

namespace Preproc.Source

open Preproc.Text

inductive Unfinished where
  | stringLiteral
  | characterConstant
  | blockComment
  deriving DecidableEq, Repr

/-- A lexeme as it stands in the text. `unfinishedAt` is how far into the lexeme the quote of an
unfinished literal stands. -/
structure Lexeme where
  kind : TokenKind
  text : List Char
  unfinishedAt : Option (Unfinished × Nat) := none
  deriving Repr

/-- All punctuators, longer ones first. -/
def punctuators : List (List Char) :=
  [ ['.', '.', '.'], ['>', '>', '='], ['<', '<', '='],
    ['-', '>'], ['+', '+'], ['-', '-'], ['&', '&'], ['|', '|'], ['<', '='], ['>', '='],
    ['=', '='], ['!', '='], ['+', '='], ['-', '='], ['*', '='], ['/', '='], ['%', '='],
    ['&', '='], ['|', '='], ['^', '='], ['<', '<'], ['>', '>'], ['#', '#'],
    ['['], [']'], ['('], [')'], ['\x7b'], ['\x7d'], ['.'], ['&'], ['*'], ['+'], ['-'], ['~'],
    ['!'], ['/'], ['%'], ['<'], ['>'], ['^'], ['|'], ['?'], [':'], [';'], ['='], [','], ['#'] ]

/-- Whether an identifier can begin with a character. -/
def isIdentifierStart (c : Char) : Bool :=
  c == '_' || isLetter c

/-- Whether an identifier can go on with a character. -/
def isIdentifierPart (c : Char) : Bool :=
  c == '_' || isLetter c || isDigit c

/-- Whether a number can go on with a character. -/
def isNumberPart (c : Char) : Bool :=
  isDigit c || c == '.' || c == '_' || isLetter c

/-- The letters after which a sign belongs to a number. -/
def isExponentMark (c : Char) : Bool :=
  c == 'e' || c == 'E' || c == 'p' || c == 'P'

/-- Whether a character opens and closes literals. -/
def isQuote (c : Char) : Bool :=
  c == '\x22' || c == '\x27'

/-- Cuts the rest of a number off a text. -/
def splitNumber : List Char → List Char × List Char
  | [] => ([], [])
  | [c] => if isNumberPart c then ([c], []) else ([], [c])
  | c :: sign :: rest =>
    if isExponentMark c && (sign == '+' || sign == '-') then
      let (body, after) := splitNumber rest
      (c :: sign :: body, after)
    else if isNumberPart c then
      let (body, after) := splitNumber (sign :: rest)
      (c :: body, after)
    else ([], c :: sign :: rest)

/-- Cuts the rest of a literal off a text, its opening quote already taken: what belongs to it,
whether it is closed, and what follows. A backslash takes the character after it along, except a
newline. -/
def splitQuoted (quote : Char) : List Char → List Char × Bool × List Char
  | [] => ([], false, [])
  | [c] => if c == '\n' then ([], false, [c]) else ([c], c == quote, [])
  | c :: next :: rest =>
    if c == '\n' then ([], false, c :: next :: rest)
    else if c == quote then ([c], true, next :: rest)
    else if c == '\\' && next != '\n' then
      let (body, closed, after) := splitQuoted quote rest
      (c :: next :: body, closed, after)
    else
      let (body, closed, after) := splitQuoted quote (next :: rest)
      (c :: body, closed, after)

/-- The literal whose encoding mark and quote are given, and what follows it. -/
def literal (mark : List Char) (quote : Char) (rest : List Char) : Lexeme × List Char :=
  let kind := if quote == '\x22' then TokenKind.string else .character
  let what := if quote == '\x22' then Unfinished.stringLiteral else .characterConstant
  let (body, closed, after) := splitQuoted quote rest
  ({ kind, text := mark ++ quote :: body,
     unfinishedAt := if closed then none else some (what, mark.length) }, after)

/-- The literal at the front of a text, if one begins there. -/
def literal? : List Char → Option (Lexeme × List Char)
  | [] => none
  | c :: rest =>
    if isQuote c then some (literal [] c rest)
    else match rest with
      | [] => none
      | next :: rest =>
        if (c == 'u' || c == 'U' || c == 'L') && isQuote next then some (literal [c] next rest)
        else match rest with
          | [] => none
          | third :: rest =>
            if c == 'u' && next == '8' && isQuote third then some (literal [c, next] third rest)
            else none

/-- Whether a number begins at the front of a text. -/
def startsNumber : List Char → Bool
  | [] => false
  | [c] => isDigit c
  | c :: next :: _ => isDigit c || (c == '.' && isDigit next)

def punctuator? (text : List Char) : Option (List Char) :=
  punctuators.find? fun mark => mark.isPrefixOf text

/-- The lexeme at the front of a text that begins with a character and does not begin with
trivia, and what follows it. -/
def splitLexeme (c : Char) (rest : List Char) : Lexeme × List Char :=
  if c == '\n' then ({ kind := .newline, text := [c] }, rest)
  else match literal? (c :: rest) with
    | some found => found
    | none =>
      if startsNumber (c :: rest) then
        let (body, after) := splitNumber rest
        ({ kind := .number, text := c :: body }, after)
      else if isIdentifierStart c then
        ({ kind := .identifier, text := c :: rest.takeWhile isIdentifierPart },
          rest.dropWhile isIdentifierPart)
      else match punctuator? (c :: rest) with
        | some mark => ({ kind := .punctuator, text := mark }, (c :: rest).drop mark.length)
        | none => ({ kind := .other, text := [c] }, rest)

theorem splitNumber_text (text : List Char) :
    (splitNumber text).1 ++ (splitNumber text).2 = text := by
  fun_induction splitNumber text <;> simp_all

theorem splitQuoted_text (quote : Char) (text : List Char) :
    (splitQuoted quote text).1 ++ (splitQuoted quote text).2.2 = text := by
  fun_induction splitQuoted quote text <;> simp_all

theorem literal_text (mark : List Char) (quote : Char) (rest : List Char) :
    (literal mark quote rest).1.text ++ (literal mark quote rest).2 = mark ++ quote :: rest := by
  have whole := splitQuoted_text quote rest
  simp [literal, whole]

theorem of_literal? {text rest : List Char} {lexeme : Lexeme}
    (found : literal? text = some (lexeme, rest)) : ∃ mark quote after,
      text = mark ++ quote :: after ∧ literal mark quote after = (lexeme, rest) := by
  unfold literal? at found
  repeat' split at found
  all_goals simp only [reduceCtorEq, Option.some.injEq] at found
  all_goals exact ⟨_, _, _, rfl, found⟩

theorem literal?_text {text rest : List Char} {lexeme : Lexeme}
    (found : literal? text = some (lexeme, rest)) : lexeme.text ++ rest = text := by
  obtain ⟨mark, quote, after, rfl, same⟩ := of_literal? found
  have whole := literal_text mark quote after
  rwa [same] at whole

theorem literal?_ne_nil {text rest : List Char} {lexeme : Lexeme}
    (found : literal? text = some (lexeme, rest)) : lexeme.text ≠ [] := by
  obtain ⟨mark, quote, after, _, same⟩ := of_literal? found
  rw [show lexeme = (literal mark quote after).1 by rw [same]]
  simp [literal]

theorem punctuators_ne_nil : ∀ mark ∈ punctuators, mark ≠ [] := by decide

/-- Cutting off a lexeme loses nothing. -/
theorem splitLexeme_text (c : Char) (rest : List Char) :
    (splitLexeme c rest).1.text ++ (splitLexeme c rest).2 = c :: rest := by
  unfold splitLexeme
  split
  · rfl
  · split
    · rename_i found
      exact literal?_text found
    · split
      · simp [splitNumber_text]
      · split
        · simp
        · split
          · rename_i mark found
            have fits := List.find?_some found
            obtain ⟨after, whole⟩ := List.isPrefixOf_iff_prefix.1 fits
            rw [← whole]
            simp
          · rfl

theorem splitLexeme_ne_nil (c : Char) (rest : List Char) : (splitLexeme c rest).1.text ≠ [] := by
  unfold splitLexeme
  split
  · simp
  · split
    · rename_i found
      exact literal?_ne_nil found
    · split
      · simp
      · split
        · simp
        · split
          · rename_i mark found
            exact punctuators_ne_nil mark (List.mem_of_find?_eq_some found)
          · simp

theorem splitLexeme_length (c : Char) (rest : List Char) :
    (splitLexeme c rest).2.length ≤ rest.length := by
  have whole := congrArg List.length (splitLexeme_text c rest)
  have positive := List.length_pos_iff.2 (splitLexeme_ne_nil c rest)
  simp only [List.length_append, List.length_cons] at whole
  omega

end Preproc.Source
