import Preproc.Text.Character

/-! # Numerals

Two ways to read a number. A plain numeral is a list of digits of a base. A lenient numeral may be
surrounded by white space, may have a sign and a base mark, may have single underscores between
its digits and after the base mark, and may use the decimals of any script.
-/

namespace Preproc.Text

def digitValue? (c : Char) : Option Nat :=
  if '0' ≤ c && c ≤ '9' then some (c.toNat - 48)
  else if 'a' ≤ c && c ≤ 'f' then some (c.toNat - 87)
  else if 'A' ≤ c && c ≤ 'F' then some (c.toNat - 55)
  else none

def isDigitOf (base : Nat) (c : Char) : Bool :=
  match digitValue? c with
  | some value => value < base
  | none => false

/-- The positional value of digits; characters that are none count as zero. -/
def positional (base : Nat) (digits : List Char) : Nat :=
  digits.foldl (fun value c => value * base + (digitValue? c).getD 0) 0

/-- How many decimals a number may have to be read. -/
def decimalLimit : Nat := 4300

/-- The value of decimals of any script, unless there are none or too many, or a character is no
decimal. -/
def decimal? (text : List Char) : Option Nat :=
  if text.isEmpty || decide (decimalLimit < text.length) then none
  else text.foldlM (fun value c => (decimalValue? c).map (value * 10 + ·)) 0

/-- A text beyond ASCII in ASCII: white space becomes spaces and decimals become digits; anything
else becomes a character that no numeral has. -/
def foldToAscii (text : List Char) : List Char :=
  if text.all fun c => c.toNat < 128 then text
  else text.map fun c =>
    if c.toNat < 127 then c
    else if isSpace c then ' '
    else match decimalValue? c with
      | some value => Nat.digitChar value
      | none => '?'

def isAsciiSpace (c : Char) : Bool :=
  c == ' ' || ('\t' ≤ c && c ≤ '\r')

/-- Takes the sign off a numeral: whether it is negative, and the rest. -/
def splitSign : List Char → Bool × List Char
  | '-' :: rest => (true, rest)
  | '+' :: rest => (false, rest)
  | text => (false, text)

/-- Takes the mark of base sixteen off a numeral, with an underscore that follows it. -/
def dropHexMark : List Char → List Char
  | '0' :: 'x' :: '_' :: rest | '0' :: 'X' :: '_' :: rest => rest
  | '0' :: 'x' :: rest | '0' :: 'X' :: rest => rest
  | text => text

/-- The digits of base sixteen of a text in which every underscore stands between two digits. -/
def separatedDigits? : List Char → Option (List Char)
  | [] => none
  | [c] => if isDigitOf 16 c then some [c] else none
  | c :: '_' :: rest => if isDigitOf 16 c then (separatedDigits? rest).map (c :: ·) else none
  | c :: rest => if isDigitOf 16 c then (separatedDigits? rest).map (c :: ·) else none

/-- The value of a lenient numeral of base sixteen. -/
def lenientHex? (text : List Char) : Option Int :=
  let text := (foldToAscii text).dropWhile isAsciiSpace
  let text := (text.reverse.dropWhile isAsciiSpace).reverse
  let (negative, text) := splitSign text
  (separatedDigits? (dropHexMark text)).map fun digits =>
    let value : Int := positional 16 digits
    if negative then -value else value

end Preproc.Text
