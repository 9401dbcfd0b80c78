import Preproc.Source.Scan

/-! # Failures

A failure stops the run that meets it. It carries its cause; the wording of each cause is given
here and nowhere else.
-/

namespace Preproc

/-- A broken promise inside the engine. -/
inductive Fault where
  /-- A stack without streams was asked for a token. -/
  | emptyStack
  /-- A span does not lie inside its tokens. -/
  | spanOutOfRange (first : Int) (last : Option Int)
  | noOps (name : String)
  | variadicNotLast (parameter : String)
  /-- Playback cannot begin with a paste. -/
  | startsAtPaste
  /-- A builtin macro was invoked from nowhere. -/
  | noOrigin (name : String)
  | noArgument (name : String) (index : Int)
  | lostToken
  deriving DecidableEq, Repr

namespace Fault

def quoteEnd : Option Int → String
  | some last => toString last
  | none => "None"

def message : Fault → String
  | emptyStack => "Stream stack is empty"
  | spanOutOfRange first last =>
    "Token span [" ++ toString first ++ ", " ++ quoteEnd last ++ ") is out of range"
  | noOps name => "Macro '" ++ name ++ "' compiled to no ops"
  | variadicNotLast parameter => "Variadic parameter '" ++ parameter ++ "' is not last"
  | startsAtPaste => "Cannot start playback at op TOKEN_PASTE"
  | noOrigin name => "Builtin macro '" ++ name ++ "' has no initiating token"
  | noArgument name index =>
    "Macro '" ++ name ++ "' has no argument for parameter " ++ toString index
  | lostToken => "Macro playback lost a token between ops"

end Fault

/-- Why a file cannot be read. -/
inductive FileError where
  | notFound (path : String)
  | isDirectory (path : String)
  | notDirectory (path : String)
  | tooLong (path : String)
  | unnameable (path : String)
  /-- The bytes of the file are not UTF-8. -/
  | undecodable (path : String)
  /-- The file is there and cannot be read, for the given reason. -/
  | unreadable (reason : String)
  deriving DecidableEq, Repr

/-- The reason that a notice quotes. -/
def FileError.message : FileError → String
  | .notFound path | .isDirectory path | .notDirectory path | .tooLong path
  | .undecodable path => path
  | .unnameable _ => "embedded null byte"
  | .unreadable reason => reason

/-- Why a run stops. -/
inductive Failure where
  /-- A scan without a sink met a flaw. -/
  | flawed (flaw : Flaw)
  | scanStopped
  /-- A promise inside the engine was broken. -/
  | internal (fault : Fault)
  /-- Playback ran past the ops, the body or the arguments of its macro. -/
  | outOfRange
  | notANumber
  | file (error : FileError)
  /-- The stream has no lines to renumber. -/
  | notAScanner
  /-- The bound on the number of steps was reached. -/
  | outOfFuel
  deriving DecidableEq, Repr

instance : Inhabited Failure := ⟨.outOfFuel⟩

end Preproc
