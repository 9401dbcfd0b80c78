import Preproc.Failure
import Preproc.Macro.Op
import Preproc.Token.Spelling

/-! # Macros

A macro has a name, a body and its compiled ops. A function-like macro also has parameters, the
last of which may be variadic. Two macros of one name are equivalent when they have the same
flavour, the same parameters, and bodies of the same spelling with the same white space.
-/

namespace Preproc

/-- How a macro is called. -/
inductive Flavor where
  | objectLike
  | functionLike
  | builtin
  deriving DecidableEq, Repr

/-- The name of the parameter that a bare ellipsis declares. -/
def variadicName : String := "__VA_ARGS__"

structure Parameter where
  name : String
  location : Location
  variadic : Bool := false
  deriving DecidableEq, Repr

def Parameter.render (parameter : Parameter) : String :=
  if parameter.variadic then
    if parameter.name == variadicName then "..." else parameter.name ++ "..."
  else parameter.name

structure Macro where
  flavor : Flavor
  name : String
  body : List Token
  ops : List Op
  parameters : List Parameter := []
  nameToken : Option Token := none
  endLocation : Location := .builtin
  deriving DecidableEq, Repr

namespace Macro

def isFunctionLike (definition : Macro) : Bool :=
  definition.flavor == .functionLike

def isBuiltin (definition : Macro) : Bool :=
  definition.flavor == .builtin

/-- Whether the last parameter takes all remaining arguments. -/
def isVariadic (definition : Macro) : Bool :=
  match definition.parameters.getLast? with
  | some parameter => parameter.variadic
  | none => false

def parameterCount (definition : Macro) : Nat :=
  definition.parameters.length

def location (definition : Macro) : Location :=
  match definition.nameToken with
  | some token => token.location
  | none => .builtin

/-- Accepts a macro that has ops and no variadic parameter before its last one. -/
def checked (definition : Macro) : Except Fault Macro :=
  if definition.ops.isEmpty then .error (.noOps definition.name)
  else match definition.parameters.dropLast.find? (·.variadic) with
    | some parameter => .error (.variadicNotLast parameter.name)
    | none => .ok definition

/-- Whether two bodies have the same spelling. The white space before the first token does not
count. -/
def sameBody : List Token → List Token → Bool
  | [], [] => true
  | left :: lefts, right :: rights =>
    left.lexeme == right.lexeme && lefts.map spaced == rights.map spaced
  | _, _ => false
where
  /-- What counts of a token after the first. -/
  spaced (token : Token) : String × Bool := (token.lexeme, token.leadingSpace)

/-- Whether redefining one macro as the other changes nothing. -/
def equivalent (left right : Macro) : Bool :=
  left.flavor == right.flavor
    && left.parameters.map declared == right.parameters.map declared
    && sameBody left.body right.body
where
  declared (parameter : Parameter) : String × Bool := (parameter.name, parameter.variadic)

/-- The name, with the parameters if the macro takes arguments. -/
def signature (definition : Macro) : String :=
  if definition.isFunctionLike then
    definition.name ++ "(" ++ ",".intercalate (definition.parameters.map Parameter.render) ++ ")"
  else definition.name

/-- The signature and the body, separated by an equals sign. -/
def describe (definition : Macro) : String :=
  if definition.isBuiltin then definition.name ++ "=<builtin>"
  else definition.signature ++ "=" ++ Token.spell definition.body

/-- The macro that a definition line gives, and the complaints about its body. Without parameters
the macro is object-like. Of two parameters of one name the first counts. -/
def build (nameToken : Token) (parameters : Option (List Parameter)) (body : List Token)
    (endLocation : Location) : Except Fault Macro × List Op.Complaint :=
  let declared := parameters.getD []
  let compiled := Op.compile (firstIndex (declared.map (·.name))) parameters.isSome body
  let definition : Macro :=
    { flavor := if parameters.isSome then .functionLike else .objectLike
      name := nameToken.lexeme
      body
      ops := compiled.ops
      parameters := declared
      nameToken := some nameToken
      endLocation }
  (definition.checked, compiled.complaints)

def lineBuiltin : Macro :=
  { flavor := .builtin, name := "__LINE__", body := [], ops := [.line 0 0] }

def fileBuiltin : Macro :=
  { flavor := .builtin, name := "__FILE__", body := [], ops := [.file 0 0] }

end Macro

end Preproc
