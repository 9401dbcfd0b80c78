import Preproc.Token.Basic

/-! # Spelling tokens as text

Tokens are spelled with one space wherever the source had white space between them. A string
literal of a spelling escapes each backslash and each quote inside it.
-/

namespace Preproc

/-- Each backslash and each double quote preceded by a backslash. -/
def escapeQuoted : List Char → List Char
  | [] => []
  | c :: rest =>
    if c == '\\' || c == '\x22' then '\\' :: c :: escapeQuoted rest else c :: escapeQuoted rest

def quoteText (text : String) : String :=
  "\"" ++ String.ofList (escapeQuoted text.toList) ++ "\""

namespace Token

/-- The text of a token as it stands after others, with its space. -/
def spelledAfter (token : Token) : String :=
  if token.leadingSpace then " " ++ token.lexeme else token.lexeme

/-- Joins lexemes, with one space wherever the source had white space. Newlines and ends of input
have no spelling, and no space stands before the first token. -/
def spell (tokens : List Token) : String :=
  match tokens.filter (fun token => !token.endsLine) with
  | [] => ""
  | first :: rest => first.lexeme ++ String.join (rest.map spelledAfter)

/-- The escaped text of a token inside a string literal, with the space before it. -/
def quotedAfter (token : Token) : String :=
  (if token.leadingSpace then " " else "") ++ String.ofList (escapeQuoted token.lexeme.toList)

/-- The inside of the string literal that stands for tokens. Only the very first token of the
list drops the space before it. -/
def quotedInside : List Token → String
  | [] => ""
  | first :: rest =>
    (if first.endsLine then "" else String.ofList (escapeQuoted first.lexeme.toList))
      ++ String.join ((rest.filter fun token => !token.endsLine).map quotedAfter)

/-- The string literal that stands for tokens: their spelling, quoted and escaped. -/
def stringize (tokens : List Token) : String :=
  "\"" ++ quotedInside tokens ++ "\""

end Token

end Preproc
