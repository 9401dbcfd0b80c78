/-! # Values of conditions

The value of a condition is an integer that is signed or unsigned. Operators give values of 64
bits: a result is wrapped into the range of its signedness. Character constants are not wrapped
until an operator does it.
-/

namespace Preproc.Condition

/-- An integer, and whether it is unsigned. -/
structure Value where
  value : Int
  isUnsigned : Bool := false
  deriving DecidableEq, Repr, Inhabited

namespace Value

def residue (value : Int) : Int :=
  value % Int.pow 2 64

def asUnsigned (operand : Value) : Int :=
  residue operand.value

def wrapped (operand : Value) : Value :=
  let rest := residue operand.value
  if operand.isUnsigned || rest < Int.pow 2 63 then { operand with value := rest }
  else { operand with value := rest - Int.pow 2 64 }

def isTrue (operand : Value) : Bool :=
  operand.value != 0

def ofBool (truth : Bool) : Value :=
  { value := if truth then 1 else 0 }

end Value

/-- Operators with one operand. -/
inductive UnaryOp where
  | not
  | complement
  | negate
  | plus
  deriving DecidableEq, Repr

namespace UnaryOp

/-- The operator of a punctuator. -/
def ofLexeme? : String → Option UnaryOp
  | "!" => some .not
  | "~" => some .complement
  | "-" => some .negate
  | "+" => some .plus
  | _ => none

def apply (op : UnaryOp) (operand : Value) : Value :=
  match op with
  | .not => .ofBool (!operand.isTrue)
  | .plus => operand.wrapped
  | .negate => { operand with value := -operand.value : Value }.wrapped
  | .complement => { operand with value := -operand.value - 1 : Value }.wrapped

end UnaryOp

/-- Operators with two operands. -/
inductive BinaryOp where
  | or
  | and
  | bitOr
  | bitXor
  | bitAnd
  | equal
  | notEqual
  | less
  | lessEqual
  | greater
  | greaterEqual
  | shiftLeft
  | shiftRight
  | add
  | subtract
  | multiply
  | divide
  | remainder
  deriving DecidableEq, Repr

namespace BinaryOp

/-- The operator of a punctuator. -/
def ofLexeme? : String → Option BinaryOp
  | "||" => some .or
  | "&&" => some .and
  | "|" => some .bitOr
  | "^" => some .bitXor
  | "&" => some .bitAnd
  | "==" => some .equal
  | "!=" => some .notEqual
  | "<" => some .less
  | "<=" => some .lessEqual
  | ">" => some .greater
  | ">=" => some .greaterEqual
  | "<<" => some .shiftLeft
  | ">>" => some .shiftRight
  | "+" => some .add
  | "-" => some .subtract
  | "*" => some .multiply
  | "/" => some .divide
  | "%" => some .remainder
  | _ => none

/-- How tightly an operator binds; the loosest level is 0. -/
def level : BinaryOp → Nat
  | .or => 0
  | .and => 1
  | .bitOr => 2
  | .bitXor => 3
  | .bitAnd => 4
  | .equal | .notEqual => 5
  | .less | .lessEqual | .greater | .greaterEqual => 6
  | .shiftLeft | .shiftRight => 7
  | .add | .subtract => 8
  | .multiply | .divide | .remainder => 9

def divides : BinaryOp → Bool
  | .divide | .remainder => true
  | _ => false

/-- The bits that two integers share. A negative one has the complements of the bits of a natural
number. -/
def bitsAnd : Int → Int → Int
  | .ofNat m, .ofNat n => .ofNat (m &&& n)
  | .ofNat m, .negSucc n => .ofNat (m ^^^ (m &&& n))
  | .negSucc m, .ofNat n => .ofNat (n ^^^ (m &&& n))
  | .negSucc m, .negSucc n => .negSucc (m ||| n)

def bitsOr : Int → Int → Int
  | .ofNat m, .ofNat n => .ofNat (m ||| n)
  | .ofNat m, .negSucc n => .negSucc (n ^^^ (m &&& n))
  | .negSucc m, .ofNat n => .negSucc (m ^^^ (m &&& n))
  | .negSucc m, .negSucc n => .negSucc (m &&& n)

def bitsXor : Int → Int → Int
  | .ofNat m, .ofNat n | .negSucc m, .negSucc n => .ofNat (m ^^^ n)
  | .ofNat m, .negSucc n | .negSucc m, .ofNat n => .negSucc (m ^^^ n)

def shiftCount (right : Int) : Nat :=
  (right % 64).toNat

/-- The integer that an operator computes from two integers of one signedness, before it is
wrapped. The truncated quotient and the remainder of a division by zero are not asked for. -/
def compute (op : BinaryOp) (left right : Int) : Int :=
  match op with
  | .add => left + right
  | .subtract => left - right
  | .multiply => left * right
  | .divide => Int.tdiv left right
  | .remainder => Int.tmod left right
  | .shiftLeft => left * Int.pow 2 (shiftCount right)
  | .shiftRight => Int.fdiv left (Int.pow 2 (shiftCount right))
  | .bitOr => bitsOr left right
  | .bitAnd => bitsAnd left right
  | .bitXor => bitsXor left right
  | _ => 0

def compares? (op : BinaryOp) (left right : Int) : Option Bool :=
  match op with
  | .equal => some (left == right)
  | .notEqual => some (left != right)
  | .less => some (left < right)
  | .lessEqual => some (left ≤ right)
  | .greater => some (right < left)
  | .greaterEqual => some (right ≤ left)
  | _ => none

/-- The value of an operator other than the logical ones. If either operand is unsigned, both are
taken as unsigned. A division by zero has no value where it is evaluated, and is zero where it is
not. -/
def apply (op : BinaryOp) (evaluated : Bool) (left right : Value) : Option Value :=
  let isUnsigned := left.isUnsigned || right.isUnsigned
  let a := if isUnsigned then left.asUnsigned else left.value
  let b := if isUnsigned then right.asUnsigned else right.value
  if op.divides && b == 0 then
    if evaluated then none else some { value := 0, isUnsigned }
  else match op.compares? a b with
    | some truth => some (.ofBool truth)
    | none => some { value := op.compute a b, isUnsigned : Value }.wrapped

end BinaryOp

end Preproc.Condition
