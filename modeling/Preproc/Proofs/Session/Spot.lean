import Preproc.Proofs.Session.Steps
import Preproc.Proofs.Source.Scanned

/-! # Where a session stands in a file

While a file is read from its own tokens, with no invocation begun, the state of its stream is known
from the tokens that are left: `Spot.input` is the file in that state. At the beginning of a line a
session is always poised so, and while lines are skipped it remains so.
-/

namespace Preproc

def presume (map : Option LineMap) (token : Token) : Token :=
  match map with
  | none => token
  | some map => token.relocated (map.apply token.location)

section

variable (map : Option LineMap)

include map

variable (token : Token)

include token

@[simp] theorem kind_presume : (presume map token).kind = token.kind := by
  cases map <;> rfl

@[simp] theorem lexeme_presume : (presume map token).lexeme = token.lexeme := by
  cases map <;> rfl

@[simp] theorem leadingSpace_presume : (presume map token).leadingSpace = token.leadingSpace := by
  cases map <;> rfl

@[simp] theorem isEof_presume : (presume map token).isEof = token.isEof := by
  simp [Token.isEof]

@[simp] theorem endsLine_presume : (presume map token).endsLine = token.endsLine := by
  simp [Token.endsLine]

@[simp] theorem isIdentifier_presume : (presume map token).isIdentifier = token.isIdentifier := by
  simp [Token.isIdentifier]

end

namespace Scanner

theorem head_eq (scanner : Scanner) : scanner.head = presume scanner.lineMap scanner.lookahead :=
  rfl

theorem kind_head (scanner : Scanner) : scanner.head.kind = scanner.lookahead.kind := by
  rw [head_eq, kind_presume]

end Scanner

/-- The token does not open a directive. -/
def Session.Plain (token : Token) : Prop :=
  token.kind ≠ .directive

variable {token : Token}

theorem Session.plain_of_endsLine (ends : token.endsLine = true) : Plain token := by
  intro directive
  simp [Token.endsLine, directive] at ends

@[simp] theorem Session.checkedUnless_ne_taken (quiet : Bool) :
    Session.Ending.checkedUnless quiet ≠ .taken := by
  cases quiet <;> decide

theorem goesOn_of_isIdentifier (identifier : token.isIdentifier = true) :
    token.endsLine = false := by
  simp_all [Token.isIdentifier, Token.endsLine]

theorem goesOn_of_isPunctuator {text : String}
    (punctuator : token.isPunctuator text = true) : token.endsLine = false := by
  simp_all [Token.isPunctuator, Token.endsLine]

/-- How many conditionals are open after a directive. -/
def Directive.deepen : Directive → Nat → Nat
  | .ifTrue, depth | .ifDefined, depth | .ifNotDefined, depth => depth + 1
  | .endIf, depth => depth - 1
  | _, depth => depth

theorem Directive.deepen_of_not_ofConditional {directive : Directive}
    (other : directive.ofConditional = false) (depth : Nat) : directive.deepen depth = depth := by
  cases directive <;> first | rfl | cases other

/-- Whether the directive continues or closes an open conditional. -/
def Directive.reaches : Directive → Bool
  | .elseIf | .otherwise | .endIf => true
  | _ => false

def Token.directive? (name : Token) : Option Directive :=
  if name.isIdentifier then Directive.ofName? name.lexeme else none

/-- Tokens up to and with the end of the input. -/
def Terminated : List Token → Prop
  | [] => False
  | [token] => token.isEof = true
  | token :: rest => token.isEof = false ∧ Terminated rest

theorem Terminated.cons {token : Token} {rest : List Token} (goesOn : token.isEof = false)
    (ends : Terminated rest) : Terminated (token :: rest) := by
  cases rest with
  | nil => exact ends.elim
  | cons next rest => exact ⟨goesOn, ends⟩

theorem Terminated.append {front rest : List Token}
    (goesOn : ∀ token ∈ front, token.isEof = false) (ends : Terminated rest) :
    Terminated (front ++ rest) := by
  induction front with
  | nil => exact ends
  | cons token front ih =>
    obtain ⟨here, later⟩ := List.forall_mem_cons.mp goesOn
    exact (ih later).cons here

namespace Session

variable {token newline : Token} {operands rest : List Token}

theorem isEof_of_inside (inside : token.endsLine = false) : token.isEof = false := by
  simp_all [Token.endsLine, Token.isEof]

theorem isEof_of_newline (kind : newline.kind = .newline) : newline.isEof = false := by
  simp [Token.isEof, kind]

theorem endsLine_of_newline (kind : newline.kind = .newline) : newline.endsLine = true := by
  simp [Token.endsLine, kind]

theorem terminated_line (inside : ∀ token ∈ operands, token.endsLine = false)
    (kind : newline.kind = .newline) (ends : Terminated rest) :
    Terminated (operands ++ newline :: rest) :=
  (ends.cons (isEof_of_newline kind)).append fun token member =>
    isEof_of_inside (inside token member)

end Session

def firstOf (tokens : List Token) : Token :=
  tokens.headD (.endOfInput .unknown)

@[simp] theorem firstOf_cons (token : Token) (rest : List Token) : firstOf (token :: rest) =
    token :=
  rfl

namespace Scanner

/-- The scanner that has given tokens to hand out. -/
def holding (file : String) (map : Option LineMap) (lastLine : Int) (tokens : List Token) :
    Scanner where
  file
  lookahead := firstOf tokens
  pending := tokens.tail.map fun token => { token }
  lastLine
  lineMap := map

/-- The scanner behind the first of some tokens. The end of the input stays. -/
def behind (file : String) (map : Option LineMap) (tokens : List Token) : Scanner :=
  holding file map (firstOf tokens).location.line
    (if (firstOf tokens).isEof then tokens else tokens.tail)

variable {file : String} {map : Option LineMap} {lastLine : Int} {tokens : List Token}

theorem head_holding : (holding file map lastLine tokens).head = presume map (firstOf tokens) :=
  rfl

theorem advance_holding (ends : Terminated tokens) :
    (holding file map lastLine tokens).advance = pure (behind file map tokens) := by
  cases tokens with
  | nil => exact ends.elim
  | cons token rest =>
    unfold advance behind
    cases rest with
    | nil =>
      have eof : token.isEof = true := ends
      simp [holding, eof]
    | cons next rest =>
      have goesOn : token.isEof = false := ends.1
      simp [holding, goesOn, meet]

theorem behind_cons (goesOn : token.isEof = false) :
    behind file map (token :: tokens) = holding file map token.location.line tokens := by
  simp [behind, goesOn]

end Scanner

theorem TokenStream.readStack_holding {file : String} {map : Option LineMap} {lastLine : Int}
    {tokens : List Token} (fuel : Nat) (ends : Terminated tokens) :
    readStack (move (fuel + 1)) [.scanner (.holding file map lastLine tokens)] =
      pure (presume map (firstOf tokens), [.scanner (.behind file map tokens)]) := by
  unfold readStack Stack.read readWith move moveWith
  simp only [pure_bind, Scanner.advance_holding ends, head, Scanner.head_holding]

/-- Where a session stands in a file of its own: the path and the file, the renumbering in force,
and the origin of the last invocation. -/
structure Spot where
  path : String
  file : String
  map : Option LineMap
  origin : Option Token

namespace Spot

/-- The expansion that shows the first of some tokens, with nothing begun. -/
def expansion (spot : Spot) (tokens : List Token) : Expansion TokenStream where
  inherited := none
  origin := spot.origin
  lookahead := presume spot.map (firstOf tokens)
  sources := [.scanner (.behind spot.file spot.map tokens)]

theorem sources_expansion (spot : Spot) (goesOn : token.isEof = false)
    (rest : List Token) : (spot.expansion (token :: rest)).sources =
      [.scanner (.holding spot.file spot.map token.location.line rest)] :=
  congrArg (fun scanner => [TokenStream.scanner scanner]) (Scanner.behind_cons goesOn)

/-- The open file at a spot, with tokens that are left and conditionals that are open. -/
def input (spot : Spot) (tokens : List Token) (frames : List Conditional) : InputFile where
  path := spot.path
  stream := .expansion (spot.expansion tokens)
  conditionals := frames

end Spot

/-- The rest of a line: tokens that stay inside it, and its newline. -/
def LineRest : List Token → Prop
  | [] => False
  | [token] => token.kind = .newline
  | token :: rest => (token.Midline ∧ token.isEof = false) ∧ LineRest rest

namespace LineRest

variable {front rest : List Token} {token : Token}

theorem goesOn (line : LineRest front) : ∀ token ∈ front, token.isEof = false := by
  induction front with
  | nil => exact line.elim
  | cons token front ih =>
    cases front with
    | nil =>
      have newline : token.kind = .newline := line
      simp [Token.isEof, newline]
    | cons next front => exact List.forall_mem_cons.mpr ⟨line.1.2, ih line.2⟩

theorem terminated (line : LineRest front) (ends : Terminated rest) : Terminated (front ++ rest) :=
  ends.append line.goesOn

theorem cases (line : LineRest front) :
    (∃ newline, front = [newline] ∧ newline.kind = .newline) ∨
      ∃ token later, front = token :: later ∧ LineRest later ∧ token.kind ≠ .directive ∧
        token.endsLine = false ∧ token.isEof = false := by
  cases front with
  | nil => exact line.elim
  | cons token front =>
    cases front with
    | nil => exact .inl ⟨token, rfl, line⟩
    | cons next front =>
      obtain ⟨⟨⟨plain, notNewline⟩, goesOn⟩, later⟩ := line
      refine .inr ⟨token, next :: front, rfl, later, plain, ?_, goesOn⟩
      have notEof : token.kind ≠ .eof := by simpa [Token.isEof] using goesOn
      simp [Token.endsLine, notNewline, notEof]

theorem plain (line : LineRest (token :: front)) : token.kind ≠ .directive := by
  rcases line.cases with ⟨newline, whole, kind⟩ | ⟨first, later, whole, _, plain, _⟩
  · cases whole
    rw [kind]
    decide
  · cases whole
    exact plain

end LineRest

/-- The directive on a line, if its tokens begin with `#` and a name. -/
def directiveOn : List Token → Option Directive
  | mark :: name :: _ => if mark.kind = .directive then name.directive? else none
  | _ => none

/-- The tokens of a whole line: they stay inside it from the beginning on, or behind a `#`. -/
def WholeLine (line : List Token) : Prop :=
  LineRest line ∨ ∃ mark name later, line = mark :: name :: later ∧ mark.kind = .directive ∧
    LineRest (name :: later)

namespace WholeLine

variable {line line' rest : List Token}

theorem goesOn (whole : WholeLine line) : ∀ token ∈ line, token.isEof = false := by
  rcases whole with inside | ⟨mark, name, later, rfl, kind, inside⟩
  · exact inside.goesOn
  · exact List.forall_mem_cons.mpr ⟨by simp [Token.isEof, kind], inside.goesOn⟩

end WholeLine

@[simp] theorem directive?_presume (map : Option LineMap) (token : Token) :
    (presume map token).directive? = token.directive? := by
  simp [Token.directive?]

/-- How many conditionals are open after a line with a directive or none. -/
def deepenBy (directive : Option Directive) (depth : Nat) : Nat :=
  (directive.map (·.deepen depth)).getD depth

end Preproc
