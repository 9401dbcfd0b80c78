import Preproc.Notice
import Preproc.Token.Basic

/-! # Compiled macro bodies

A macro body is compiled to ops that are played back in order: spans of the body, parameters in
one of three forms, and pastes between their neighbours. Ops refer to the body by index.
Compiling never fails; what it has to leave out it complains about.

Every op has two operands, which are integers: an index below zero counts from the end. An operand
that an op has no use for is kept and means nothing; compiling sets it to zero.
-/

namespace Preproc

/-- One step of playing back a macro. -/
inductive Op where
  | span (first last : Int)
  | expanded (index parameter : Int)
  /-- A parameter whose argument is taken as written. -/
  | unexpanded (index parameter : Int)
  /-- A parameter whose argument becomes a string literal; `index` is that of the `#`. -/
  | stringized (index parameter : Int)
  /-- Joins the last token before to the first token after; `index` is that of the `##`. -/
  | paste (index second : Int)
  | line (first second : Int)
  | file (first second : Int)
  deriving DecidableEq, Repr

namespace Op

def isParameter : Op → Bool
  | expanded _ _ | unexpanded _ _ | stringized _ _ => true
  | _ => false

def isPaste : Op → Bool
  | paste _ _ => true
  | _ => false

/-- The op with an argument taken as written instead of expanded. -/
def shielded : Op → Op
  | expanded index parameter => unexpanded index parameter
  | op => op

/-- What the op before the current span is. -/
inductive Before where
  | nothing
  | paste
  | operand
  deriving DecidableEq, Repr

abbrev Complaint := Token × Notice

/-- Ops, and complaints in the order in which they arise. -/
structure Compiled where
  ops : List Op
  complaints : List Complaint := []
  deriving Repr

namespace Compiled

/-- The same ops with a complaint made first. -/
def complain (compiled : Compiled) (token : Token) (notice : Notice) : Compiled :=
  { compiled with complaints := (token, notice) :: compiled.complaints }

/-- Puts an op, and before it the span from `first` to `last` unless it is empty, in front. -/
def after (compiled : Compiled) (first last : Nat) (op : Op) : Compiled :=
  { compiled with
    ops := if first = last then op :: compiled.ops else span first last :: op :: compiled.ops }

end Compiled

/-- The ops that end a body: the last span, unless it is empty and something came before it. -/
def finish (before : Before) (first last : Nat) : Compiled :=
  { ops := if first = last ∧ before ≠ .nothing then [] else [span first last] }

/-- Compiles the rest of a body. The current span begins at `first`, the next token has the index
`index`, and `parameter?` gives the index of a parameter by name. -/
def compileFrom (parameter? : Token → Option Nat) (functionLike : Bool) :
    (before : Before) → (first index : Nat) → List Token → Compiled
  | before, first, index, [] => finish before first index
  | before, first, index, token :: rest =>
    match parameter? token with
    | some parameter =>
      (compileFrom parameter? functionLike .operand (index + 1) (index + 1) rest).after
        first index (expanded index parameter)
    | none =>
      if functionLike && token.isPunctuator "#" then
        match rest with
        | [] => (finish before first (index + 1)).complain token .stringizeWithoutParameter
        | name :: rest =>
          match parameter? name with
          | none =>
            (compileFrom parameter? functionLike before first (index + 1) (name :: rest)).complain
              token .stringizeWithoutParameter
          | some parameter =>
            (compileFrom parameter? functionLike .operand (index + 2) (index + 2) rest).after
              first index (stringized index parameter)
      else if token.isPunctuator "##" then
        if before = .nothing ∧ first = index then
          (compileFrom parameter? functionLike before (index + 1) (index + 1) rest).complain
            token .pasteAtStart
        else if rest.isEmpty then
          (finish before first index).complain token .pasteAtEnd
        else if before = .paste ∧ first = index then
          compileFrom parameter? functionLike before (index + 1) (index + 1) rest
        else
          (compileFrom parameter? functionLike .paste (index + 1) (index + 1) rest).after
            first index (paste index 0)
      else compileFrom parameter? functionLike before first (index + 1) rest

def beginsWithPaste : List Op → Bool
  | paste _ _ :: _ :: _ => true
  | _ => false

def shieldOperands : (afterPaste : Bool) → List Op → List Op
  | _, [] => []
  | afterPaste, op :: rest =>
    (if afterPaste || beginsWithPaste rest then op.shielded else op)
      :: shieldOperands op.isPaste rest

def compile (parameter? : Token → Option Nat) (functionLike : Bool) (body : List Token) :
    Compiled :=
  let compiled := compileFrom parameter? functionLike .nothing 0 0 body
  { compiled with ops := shieldOperands false compiled.ops }

end Op

/-- The index that a list of names gives to an identifier: that of the first equal name. -/
def firstIndex (names : List String) (token : Token) : Option Nat :=
  if token.isIdentifier then names.idxOf? token.lexeme else none

/-- The index that a list of names gives to an identifier: that of the last equal name. -/
def lastIndex (names : List String) (token : Token) : Option Nat :=
  if token.isIdentifier then
    (names.reverse.idxOf? token.lexeme).map (names.length - 1 - ·)
  else none

end Preproc
