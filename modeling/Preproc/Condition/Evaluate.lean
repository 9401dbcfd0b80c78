import Preproc.Condition.Literal
import Preproc.Condition.Value
import Preproc.Token.Basic

/-! # Evaluating conditions

A condition is evaluated while it is parsed, in one pass from left to right, so the first error
met is the one that counts. The levels of binary operators are left-associative; below them stand
prefix operators, parentheses, constants and identifiers, which are zero. An operand that is not
needed is parsed but not evaluated: there, a division by zero is no error.
-/

namespace Preproc.Condition

/-- Why a condition has no value. -/
inductive Error where
  | missingExpression
  | unexpectedToken (token : Token)
  | expectedBefore (expected : String) (found : Option Token)
  | expectedValue
  | invalidInteger (token : Token)
  | invalidCharacter (token : Token)
  | notInExpressions (token : Token)
  | divisionByZero
  | definedWithoutName (token : Token)
  /-- The parenthesis after `defined` is not closed. -/
  | definedUnclosed (token : Token)
  deriving DecidableEq, Repr

namespace Error

def message : Error → String
  | missingExpression => "missing expression"
  | unexpectedToken token => "unexpected token '" ++ token.lexeme ++ "'"
  | expectedBefore expected found =>
    let lexeme := match found with
      | some token => if token.lexeme.isEmpty then "end of expression" else token.lexeme
      | none => "end of expression"
    "expected '" ++ expected ++ "' before '" ++ lexeme ++ "'"
  | expectedValue => "expected value in expression"
  | invalidInteger token => "invalid integer constant '" ++ token.lexeme ++ "'"
  | invalidCharacter token => "invalid character constant " ++ token.lexeme
  | notInExpressions token => "token '" ++ token.lexeme ++ "' is not valid in expressions"
  | divisionByZero => "division by zero in preprocessor expression"
  | definedWithoutName _ => "macro name missing after 'defined'"
  | definedUnclosed _ => "missing ')' after 'defined'"

def token? : Error → Option Token
  | unexpectedToken token | invalidInteger token | invalidCharacter token
  | notInExpressions token | definedWithoutName token | definedUnclosed token => some token
  | expectedBefore _ found => found
  | missingExpression | expectedValue | divisionByZero => none

end Error

inductive Stop where
  | error (error : Error)
  /-- A constant cannot be read: the digits of a hexadecimal escape are no number, or there are too
  many decimal digits. -/
  | badEscape
  /-- The bound on the depth of the parse was reached. -/
  | outOfFuel
  deriving DecidableEq, Repr

abbrev Parsed := Except Stop (Value × List Token)

def binaryAt? (level : Nat) : List Token → Option (BinaryOp × List Token)
  | [] => none
  | token :: rest =>
    if token.kind == .punctuator then
      match BinaryOp.ofLexeme? token.lexeme with
      | some op => if op.level = level then some (op, rest) else none
      | none => none
    else none

/-- The prefix operator at the front of the tokens. -/
def unaryAt? : List Token → Option (UnaryOp × List Token)
  | [] => none
  | token :: rest =>
    if token.kind == .punctuator then (UnaryOp.ofLexeme? token.lexeme).map (·, rest) else none

/-- Takes a punctuator that has to come next. -/
def expect (text : String) : List Token → Except Stop (List Token)
  | [] => .error (.error (.expectedBefore text none))
  | token :: rest =>
    if token.isPunctuator text then .ok rest
    else .error (.error (.expectedBefore text (some token)))

def operand (token : Token) : Except Stop Value :=
  match token.kind with
  | .number =>
    match integerConstant token.lexeme.toList with
    | .value value =>
      .ok { value, isUnsigned := isUnsignedConstant token.lexeme.toList : Value }.wrapped
    | .invalid => .error (.error (.invalidInteger token))
    | .tooLong => .error .badEscape
  | .character =>
    match characterConstant token.lexeme.toList with
    | .value value => .ok { value }
    | .invalid => .error (.error (.invalidCharacter token))
    | .badEscape => .error .badEscape
  | .identifier => .ok { value := 0 }
  | _ => .error (.error (.notInExpressions token))

def levelCount : Nat := 10

mutual

def parseConditional : (fuel : Nat) → (evaluated : Bool) → List Token → Parsed
  | 0, _, _ => .error .outOfFuel
  | fuel + 1, evaluated, tokens => do
    let (condition, tokens) ← parseBinary fuel 0 evaluated tokens
    match tokens with
    | [] => return (condition, [])
    | token :: rest =>
      if token.isPunctuator "?" then
        let (whenTrue, rest) ← parseConditional fuel (evaluated && condition.isTrue) rest
        let rest ← expect ":" rest
        let (whenFalse, rest) ← parseConditional fuel (evaluated && !condition.isTrue) rest
        let chosen := if condition.isTrue then whenTrue else whenFalse
        let isUnsigned := whenTrue.isUnsigned || whenFalse.isUnsigned
        return ({ chosen with isUnsigned : Value }.wrapped, rest)
      else return (condition, token :: rest)

def parseBinary : (fuel level : Nat) → (evaluated : Bool) → List Token → Parsed
  | 0, _, _, _ => .error .outOfFuel
  | fuel + 1, level, evaluated, tokens =>
    if levelCount ≤ level then parseUnary fuel evaluated tokens
    else do
      let (left, tokens) ← parseBinary fuel (level + 1) evaluated tokens
      parseRest fuel level evaluated left tokens

def parseRest : (fuel level : Nat) → (evaluated : Bool) → Value → List Token → Parsed
  | 0, _, _, _, _ => .error .outOfFuel
  | fuel + 1, level, evaluated, left, tokens =>
    match binaryAt? level tokens with
    | none => .ok (left, tokens)
    | some (.and, rest) => do
      let (right, rest) ← parseBinary fuel (level + 1) (evaluated && left.isTrue) rest
      parseRest fuel level evaluated (.ofBool (left.isTrue && right.isTrue)) rest
    | some (.or, rest) => do
      let (right, rest) ← parseBinary fuel (level + 1) (evaluated && !left.isTrue) rest
      parseRest fuel level evaluated (.ofBool (left.isTrue || right.isTrue)) rest
    | some (op, rest) => do
      let (right, rest) ← parseBinary fuel (level + 1) evaluated rest
      match op.apply evaluated left right with
      | some value => parseRest fuel level evaluated value rest
      | none => .error (.error .divisionByZero)

/-- Parses prefix operators and what they apply to. -/
def parseUnary : (fuel : Nat) → (evaluated : Bool) → List Token → Parsed
  | 0, _, _ => .error .outOfFuel
  | fuel + 1, evaluated, tokens =>
    match unaryAt? tokens with
    | some (op, rest) => do
      let (value, rest) ← parseUnary fuel evaluated rest
      return (op.apply value, rest)
    | none => parsePrimary fuel evaluated tokens

/-- Parses an expression in parentheses, a constant or an identifier. -/
def parsePrimary : (fuel : Nat) → (evaluated : Bool) → List Token → Parsed
  | 0, _, _ => .error .outOfFuel
  | _ + 1, _, [] => .error (.error .expectedValue)
  | fuel + 1, evaluated, token :: rest =>
    if token.isPunctuator "(" then do
      let (value, rest) ← parseConditional fuel evaluated rest
      let rest ← expect ")" rest
      return (value, rest)
    else do return (← operand token, rest)

end

/-- A depth that no parse of so many tokens reaches: between two tokens the parse goes through
each level at most once. -/
def parseFuel (count : Nat) : Nat :=
  (levelCount + 5) * (count + 1)

/-- The value of an expanded condition. Newlines and ends of input do not count. -/
def evaluate (tokens : List Token) : Except Stop Int :=
  match tokens.filter (fun token => !token.endsLine) with
  | [] => .error (.error .missingExpression)
  | tokens => do
    let (value, rest) ← parseConditional (parseFuel tokens.length) true tokens
    match rest with
    | [] => return value.value
    | token :: _ => .error (.error (.unexpectedToken token))

/-- Replaces `defined NAME` and `defined (NAME)` by one or zero, given which names are defined. -/
def resolveDefined (isDefined : String → Bool) : List Token → Except Error (List Token)
  | [] => .ok []
  | token :: rest =>
    if token.isIdentifier && token.lexeme == "defined" then
      let answer (name : Token) : Token :=
        { token with kind := .number, lexeme := if isDefined name.lexeme then "1" else "0" }
      match rest with
      | [] => .error (.definedWithoutName token)
      | next :: rest =>
        if next.isPunctuator "(" then
          match rest with
          | [] => .error (.definedWithoutName token)
          | name :: rest =>
            if !name.isIdentifier then .error (.definedWithoutName token)
            else match rest with
              | [] => .error (.definedUnclosed token)
              | closing :: rest =>
                if closing.isPunctuator ")" then
                  (resolveDefined isDefined rest).map (answer name :: ·)
                else .error (.definedUnclosed token)
        else if next.isIdentifier then (resolveDefined isDefined rest).map (answer next :: ·)
        else .error (.definedWithoutName token)
    else (resolveDefined isDefined rest).map (token :: ·)

end Preproc.Condition
