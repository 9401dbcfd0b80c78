import Preproc.Diagnostic.Basic

/-! # Printing diagnostics

Diagnostics are printed for people, a line each, or as a JSON array of objects indented by two
spaces, in ASCII: every other character is written as escapes of its UTF-16 units.
-/

namespace Preproc

inductive DiagnosticFormat where
  | human
  | json
  deriving DecidableEq, Repr

namespace DiagnosticFormat

def ofName? : String → Option DiagnosticFormat
  | "human" => some .human
  | "json" => some .json
  | _ => none

def name : DiagnosticFormat → String
  | .human => "human"
  | .json => "json"

end DiagnosticFormat

namespace JsonText

def unitDigits (unit : Nat) : List Char :=
  [unit / 4096 % 16, unit / 256 % 16, unit / 16 % 16, unit % 16].map Nat.digitChar

def escapeUnit (unit : Nat) : List Char :=
  '\\' :: 'u' :: unitDigits unit

/-- A character inside a JSON string. -/
def escapeChar (c : Char) : List Char :=
  if c == '\x22' then ['\\', '\x22']
  else if c == '\\' then ['\\', '\\']
  else if c == '\n' then ['\\', 'n']
  else if c == '\r' then ['\\', 'r']
  else if c == '\t' then ['\\', 't']
  else if c == '\x08' then ['\\', 'b']
  else if c == '\x0c' then ['\\', 'f']
  else if 32 ≤ c.toNat && c.toNat ≤ 126 then [c]
  else if c.toNat < 0x10000 then escapeUnit c.toNat
  else
    let rest := c.toNat - 0x10000
    escapeUnit (0xd800 + rest / 0x400) ++ escapeUnit (0xdc00 + rest % 0x400)

def quote (text : String) : String :=
  "\"" ++ String.ofList (text.toList.flatMap escapeChar) ++ "\""

/-- An optional integer, `null` when missing. -/
def integer : Option Int → String
  | some value => toString value
  | none => "null"

/-- An optional string, `null` when missing. -/
def string : Option String → String
  | some text => quote text
  | none => "null"

end JsonText

namespace Diagnostic

def jsonMembers (diagnostic : Diagnostic) : List (String × String) :=
  [ ("severity", JsonText.quote diagnostic.severity.word),
    ("filename", JsonText.quote diagnostic.file),
    ("line", JsonText.integer diagnostic.line),
    ("column", JsonText.integer diagnostic.column),
    ("code", JsonText.string diagnostic.code),
    ("message", JsonText.quote diagnostic.message) ]

def renderObject (diagnostic : Diagnostic) : String :=
  "  \x7b\n" ++ ",\n".intercalate
    (diagnostic.jsonMembers.map fun (key, value) =>
      "    " ++ JsonText.quote key ++ ": " ++ value) ++ "\n  \x7d"

def renderArray (diagnostics : List Diagnostic) : String :=
  if diagnostics.isEmpty then "[]"
  else "[\n" ++ ",\n".intercalate (diagnostics.map renderObject) ++ "\n]"

def renderAll (format : DiagnosticFormat) (diagnostics : List Diagnostic) : String :=
  match format with
  | .human => "\n".intercalate (diagnostics.map renderWithCode)
  | .json => renderArray diagnostics

end Diagnostic

end Preproc
