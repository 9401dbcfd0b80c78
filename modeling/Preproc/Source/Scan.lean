import Preproc.Source.Piece
import Preproc.Source.Splice

/-! # Scanning a source

Scanning gives the tokens of a source in order, the end of the input last. A flaw, that is an
unfinished literal or comment, stays with the token that scanning it produced, so that a reader
who takes tokens one at a time meets it at the right moment. A strict scan stops at the first flaw.
-/

namespace Preproc

open Source

/-- An unfinished literal or comment, and where it begins. -/
structure Flaw where
  what : Unfinished
  location : Location
  deriving DecidableEq, Repr

def Source.Unfinished.describe : Unfinished → String
  | .stringLiteral => "string literal"
  | .characterConstant => "character constant"
  | .blockComment => "block comment"

/-- What a flaw is called when it stops a scan. -/
def Flaw.message (flaw : Flaw) : String :=
  "Unterminated " ++ flaw.what.describe ++ " at "
    ++ toString flaw.location.line ++ ":" ++ toString flaw.location.column

/-- A token, and the flaw met while scanning it. -/
structure Scanned where
  token : Token
  flaw : Option Flaw := none
  deriving DecidableEq, Repr

def placeAt (file : String) (positions : List Position) : Location :=
  let position := positions.headD .start
  ⟨file, position.line, position.column⟩

/-- The token of a lexeme. Apart from a newline, a lexeme at the start of a line counts as spaced,
and `#` opens a directive there. -/
def tokenOf (lexeme : Lexeme) (location : Location) (spaced lineStart : Bool) : Token :=
  let opens := lineStart && lexeme.kind == .punctuator && lexeme.text == ['#']
  { kind := if opens then .directive else lexeme.kind
    lexeme := String.ofList lexeme.text
    location
    leadingSpace := spaced || (lineStart && lexeme.kind != .newline) }

/-- The tokens of pieces, each at the position of its first character. -/
def placePieces (file : String) :
    (lineStart : Bool) → List Position → List Piece → List Trivia → List Scanned
  | _, positions, [], lastGap =>
    let flaw := (unclosedAt? lastGap).map fun offset =>
      ⟨.blockComment, placeAt file (positions.drop offset)⟩
    [{ token := .endOfInput (placeAt file (positions.drop (gapText lastGap).length)), flaw }]
  | lineStart, positions, piece :: rest, lastGap =>
    let here := positions.drop (gapText piece.gap).length
    let token := tokenOf piece.lexeme (placeAt file here) (!piece.gap.isEmpty) lineStart
    let flaw := piece.lexeme.unfinishedAt.map fun (what, offset) =>
      ⟨what, placeAt file (here.drop offset)⟩
    { token, flaw } :: placePieces file (piece.lexeme.kind == .newline)
      (here.drop piece.lexeme.text.length) rest lastGap

/-- All tokens of a source, the end of the input last. -/
def scan (file : String) (source : String) : List Scanned :=
  let spliced := splice source.toList
  let whole := cut spliced.text
  placePieces file true spliced.positions whole.pieces whole.lastGap

def scanTokens (file : String) (source : String) : List Token :=
  (scan file source).map (·.token)

def scanFlaws (file : String) (source : String) : List Flaw :=
  (scan file source).filterMap (·.flaw)

/-- Skips the trivia before the next token, up to a comment that is not closed: whether there are
any, and the positions and the text that are left. -/
def skipStrict (file : String) (positions : List Position) (text : List Char) :
    Except Flaw (Bool × List Position × List Char) :=
  match _cut : trivia? text with
  | none => .ok (false, positions, text)
  | some (.blockComment _ false, _) => .error ⟨.blockComment, placeAt file positions⟩
  | some (trivia, rest) =>
    (skipStrict file (positions.drop trivia.text.length) rest).map fun (_, left) => (true, left)
termination_by text.length
decreasing_by exact trivia?_length _cut

theorem skipStrict_length {file : String} {positions here : List Position} {text rest : List Char}
    {spaced : Bool} (skips : skipStrict file positions text = .ok (spaced, here, rest)) :
    rest.length ≤ text.length := by
  fun_induction skipStrict file positions text generalizing spaced with
  | case1 positions text cut =>
    cases skips
    exact Nat.le_refl _
  | case2 => cases skips
  | case3 positions text trivia after closed cut ih =>
    cases later : skipStrict file (positions.drop trivia.text.length) after with
    | error flaw =>
      rw [later] at skips
      cases skips
    | ok found =>
      obtain ⟨_, _, _⟩ := found
      rw [later] at skips
      cases skips
      exact Nat.le_trans (ih later) (Nat.le_of_lt (trivia?_length cut))

/-- The tokens of a text, up to a comment that is not closed or a literal that is not finished. -/
def scanStrictFrom (file : String) (lineStart : Bool) (positions : List Position)
    (text : List Char) : Except Flaw (List Token) :=
  match _skips : skipStrict file positions text with
  | .error flaw => .error flaw
  | .ok (_, here, []) => .ok [.endOfInput (placeAt file here)]
  | .ok (spaced, here, c :: rest) =>
    let lexeme := (splitLexeme c rest).1
    match lexeme.unfinishedAt with
    | some (what, offset) => .error ⟨what, placeAt file (here.drop offset)⟩
    | none =>
      (scanStrictFrom file (lexeme.kind == .newline) (here.drop lexeme.text.length)
        (splitLexeme c rest).2).map (tokenOf lexeme (placeAt file here) spaced lineStart :: ·)
termination_by text.length
decreasing_by
  have shorter := splitLexeme_length c rest
  have bounded := skipStrict_length _skips
  simp only [List.length_cons] at bounded
  omega

/-- All tokens of a source, unless a flaw stops the scan. -/
def scanStrict (file : String) (source : String) : Except Flaw (List Token) :=
  let spliced := splice source.toList
  scanStrictFrom file true spliced.positions spliced.text

/-- Places tokens that were scanned from made-up text at one location: ends of lines and of input
vanish, a `#` opens nothing, and the first token has no space before it. -/
def placeTogether (location : Location) (tokens : List Token) : List Token :=
  match tokens.filter (fun token => !token.endsLine) with
  | [] => []
  | first :: rest => place false first :: rest.map fun token => place token.leadingSpace token
where
  place (leadingSpace : Bool) (token : Token) : Token :=
    { token with
      kind := if token.kind == .directive then .punctuator else token.kind
      location
      leadingSpace }

def rescan (text : String) (location : Location) : List Token :=
  placeTogether location (scanTokens location.file text)

def rescanStrict (text : String) (location : Location) : Except Flaw (List Token) :=
  (scanStrict location.file text).map (placeTogether location)

end Preproc
