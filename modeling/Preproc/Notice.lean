/-! # Notices

A notice is something the preprocessor has to say about a source. Each kind of notice has a fixed
code, a fixed severity and a wording that quotes what it is about; the quoted parts are text.
-/

namespace Preproc

/-- How serious a notice is. -/
inductive Severity where
  | note
  | warning
  | error
  deriving DecidableEq, Repr

def Severity.word : Severity → String
  | .note => "note"
  | .warning => "warning"
  | .error => "error"

/-- Everything that can be said about a source. -/
inductive Notice where
  | unknownDirective (name : String)
  | expectedDirectiveName
  | expectedInDirective (expected directive : String)
  | extraTokens (directive : String)
  | userError (text : String)
  | userWarning (text : String)
  | endOfFileInConditional
  | seeDirective (directive : String)
  | withoutIf (directive : String)
  | afterElse (directive : String)
  | invalidCondition (directive reason : String)
  | invalidLineNumber (text : String)
  | redefinition (name : String)
  | seePreviousDefinition (name : String)
  | builtinRedefinition (name : String)
  | builtinUndefinition (name : String)
  | duplicateParameter (name : String)
  | variadicNotLast (name : String)
  | expectedInParameters (expected : String)
  | stringizeWithoutParameter
  | pasteAtStart
  | pasteAtEnd
  | invalidPaste (text : String)
  | wrongArgumentCount (name required given : String)
  | unterminatedCall (name : String)
  | includeNotFound (reference : String)
  | includeUnreadable (name reason : String)
  | includeTooDeep (limit : String)
  | tooManyErrors
  | unterminatedLiteral (what : String)
  | unterminatedComment
  deriving DecidableEq, Repr

namespace Notice

def code : Notice → String
  | unknownDirective _ => "PPS-PP-0101"
  | expectedDirectiveName => "PPS-PP-0102"
  | expectedInDirective _ _ => "PPS-PP-0103"
  | extraTokens _ => "PPS-PP-0104"
  | userError _ => "PPS-PP-0105"
  | userWarning _ => "PPS-PP-0106"
  | endOfFileInConditional => "PPS-PP-0107"
  | seeDirective _ => "PPS-PP-0108"
  | withoutIf _ => "PPS-PP-0109"
  | afterElse _ => "PPS-PP-0110"
  | invalidCondition _ _ => "PPS-PP-0111"
  | invalidLineNumber _ => "PPS-PP-0112"
  | redefinition _ => "PPS-PP-0201"
  | seePreviousDefinition _ => "PPS-PP-0202"
  | builtinRedefinition _ => "PPS-PP-0203"
  | builtinUndefinition _ => "PPS-PP-0204"
  | duplicateParameter _ => "PPS-PP-0205"
  | variadicNotLast _ => "PPS-PP-0206"
  | expectedInParameters _ => "PPS-PP-0207"
  | stringizeWithoutParameter => "PPS-PP-0208"
  | pasteAtStart => "PPS-PP-0209"
  | pasteAtEnd => "PPS-PP-0210"
  | invalidPaste _ => "PPS-PP-0211"
  | wrongArgumentCount _ _ _ => "PPS-PP-0212"
  | unterminatedCall _ => "PPS-PP-0213"
  | includeNotFound _ => "PPS-PP-0301"
  | includeUnreadable _ _ => "PPS-PP-0302"
  | includeTooDeep _ => "PPS-PP-0303"
  | tooManyErrors => "PPS-PP-0304"
  | unterminatedLiteral _ => "PPS-LX-0401"
  | unterminatedComment => "PPS-LX-0402"

def severity : Notice → Severity
  | extraTokens _ | userWarning _ | redefinition _ | builtinUndefinition _ | invalidPaste _
  | unterminatedLiteral _ => .warning
  | seeDirective _ | seePreviousDefinition _ => .note
  | _ => .error

def message : Notice → String
  | unknownDirective name => "unknown preprocessor directive '#" ++ name ++ "'"
  | expectedDirectiveName => "expected preprocessor directive name"
  | expectedInDirective expected directive =>
    "expected " ++ expected ++ " in '#" ++ directive ++ "' directive"
  | extraTokens directive => "extra tokens at end of '#" ++ directive ++ "' directive"
  | userError text => "#error " ++ text
  | userWarning text => "#warning " ++ text
  | endOfFileInConditional => "end of file inside preprocessor conditional"
  | seeDirective directive => "see '#" ++ directive ++ "' directive"
  | withoutIf directive => "'#" ++ directive ++ "' without matching '#if'"
  | afterElse directive => "'#" ++ directive ++ "' after '#else'"
  | invalidCondition directive reason =>
    "invalid '#" ++ directive ++ "' expression: " ++ reason
  | invalidLineNumber text => "'#line' expects a positive line number, got '" ++ text ++ "'"
  | redefinition name => "macro '" ++ name ++ "' redefined"
  | seePreviousDefinition name => "see previous definition of '" ++ name ++ "'"
  | builtinRedefinition name => "cannot redefine builtin macro '" ++ name ++ "'"
  | builtinUndefinition name => "cannot undefine builtin macro '" ++ name ++ "'"
  | duplicateParameter name => "duplicate macro parameter name '" ++ name ++ "'"
  | variadicNotLast name =>
    "variadic macro parameter '" ++ name ++ "' must be the last parameter"
  | expectedInParameters expected => "expected " ++ expected ++ " in macro parameter list"
  | stringizeWithoutParameter => "'#' is not followed by a macro parameter"
  | pasteAtStart => "'##' cannot appear at start of macro expansion"
  | pasteAtEnd => "'##' cannot appear at end of macro expansion"
  | invalidPaste text => "pasting formed '" ++ text ++ "', an invalid preprocessing token"
  | wrongArgumentCount name required given =>
    "macro '" ++ name ++ "' requires " ++ required ++ " arguments, but " ++ given ++ " given"
  | unterminatedCall name => "unterminated argument list invoking macro '" ++ name ++ "'"
  | includeNotFound reference => "include not found: " ++ reference
  | includeUnreadable name reason => "unable to read include " ++ name ++ ": " ++ reason
  | includeTooDeep limit => "#include nested deeper than " ++ limit ++ " levels"
  | tooManyErrors => "too many errors emitted, stopping now"
  | unterminatedLiteral what => "missing terminating quote in " ++ what
  | unterminatedComment => "unterminated block comment"

end Notice

end Preproc
