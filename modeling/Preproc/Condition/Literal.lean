import Preproc.Text.Numeral

/-! # Constants in conditions

An integer constant is decimal, octal or hexadecimal with an optional suffix; a decimal one has a
limited length. A character constant stands for one character or for one escape.
-/

namespace Preproc.Condition

open Preproc.Text

def isSuffixLetter (c : Char) : Bool :=
  c == 'u' || c == 'U' || c == 'l' || c == 'L'

def longMarks : List (List Char) :=
  [['l', 'l'], ['L', 'L'], ['l'], ['L']]

def unsignedMarks : List (List Char) :=
  [['u'], ['U']]

/-- All suffixes: at most one mark of each kind, in either order. -/
def suffixes : List (List Char) :=
  [[]] ++ unsignedMarks ++ longMarks
    ++ unsignedMarks.flatMap (fun mark => longMarks.map (mark ++ ·))
    ++ longMarks.flatMap (fun mark => unsignedMarks.map (mark ++ ·))

def integerDigits? : List Char → Option Nat
  | [] => none
  | [c] => if isDigitOf 10 c then some (positional 10 [c]) else none
  | c :: mark :: rest =>
    if c == '0' && (mark == 'x' || mark == 'X') then
      if !rest.isEmpty && rest.all (isDigitOf 16) then some (positional 16 rest) else none
    else if c == '0' then
      if (mark :: rest).all (isDigitOf 8) then some (positional 8 (mark :: rest)) else none
    else if (c :: mark :: rest).all (isDigitOf 10) then some (positional 10 (c :: mark :: rest))
    else none

/-- The number that a constant writes, however long it is. -/
def integer? (text : List Char) : Option Nat :=
  let tail := text.reverse.takeWhile isSuffixLetter
  let digits := (text.reverse.dropWhile isSuffixLetter).reverse
  if suffixes.contains tail.reverse then integerDigits? digits else none

inductive IntegerConstant where
  | value (value : Nat)
  /-- The text is no integer constant. -/
  | invalid
  /-- The constant is decimal and has more digits than are read. -/
  | tooLong
  deriving DecidableEq, Repr

/-- Whether a constant without its suffix has too many digits. Only decimal ones are counted. -/
def isTooLong (text : List Char) : Bool :=
  text.head? != some '0' && decide (decimalLimit < (text.reverse.dropWhile isSuffixLetter).length)

/-- What an integer constant stands for. -/
def integerConstant (text : List Char) : IntegerConstant :=
  match integer? text with
  | none => .invalid
  | some value => if isTooLong text then .tooLong else .value value

def isUnsignedConstant (text : List Char) : Bool :=
  text.any fun c => c == 'u' || c == 'U'

def simpleEscape? : Char → Option Nat
  | 'n' => some 10
  | 't' => some 9
  | 'r' => some 13
  | 'a' => some 7
  | 'b' => some 8
  | 'f' => some 12
  | 'v' => some 11
  | '0' => some 0
  | '\\' => some 92
  | '\x27' => some 39
  | '\x22' => some 34
  | '?' => some 63
  | _ => none

inductive CharacterConstant where
  | value (value : Int)
  /-- The text is no character constant. -/
  | invalid
  /-- The digits of a hexadecimal escape are no number. -/
  | badEscape
  deriving DecidableEq, Repr

/-- What the escape after a backslash stands for. -/
def escape (text : List Char) : CharacterConstant :=
  match text with
  | [] => .invalid
  | [c] =>
    match simpleEscape? c with
    | some value => .value value
    | none => if isDigitOf 8 c then .value (positional 8 [c]) else .invalid
  | c :: rest =>
    if c == 'x' then
      match lenientHex? rest with
      | some value => .value value
      | none => .badEscape
    else if text.all (isDigitOf 8) then .value (positional 8 text)
    else .invalid

/-- The letters that may stand before the quote of a character constant. -/
def isEncodingLetter (c : Char) : Bool :=
  c == 'u' || c == 'U' || c == 'L' || c == '8'

/-- What the text between the quotes stands for. -/
def characterInside : List Char → CharacterConstant
  | '\\' :: rest => escape rest
  | [c] => .value c.toNat
  | _ => .invalid

def characterConstant (text : List Char) : CharacterConstant :=
  match text.dropWhile isEncodingLetter with
  | '\x27' :: second :: rest =>
    if (second :: rest).getLast? == some '\x27' && !rest.isEmpty then
      characterInside (second :: rest).dropLast
    else .invalid
  | _ => .invalid

end Preproc.Condition
